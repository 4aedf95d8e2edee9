import MatrixCalc.Proofs.Compilation
import MatrixCalc.Proofs.Conservation
import MatrixCalc.Proofs.Renaming

/-!
# Two compilations in lockstep

A text is compiled twice, with two stores.  The cells that the first store has go by other names in
the second, and hold other contents.  What the compilations create differs in the names of cells
only: the cells that the first creates behind the old ones, the second creates behind the new ones.

* `Recompilation.Alike` : two drafts that are the same up to these names.
* `Recompilation.Lockstep` : two computations that take such drafts to such drafts.  If the
  sequences in reach hold the same, then the second succeeds where the first does; and if the names
  in reach are bound alike, then it also fails where the first does.
-/

namespace MatrixCalc

open EStateM (Result)

/-! ### Other names for new cells -/

/-- The names that keep the cells of `old` and move all further cells behind those of `new`. -/
def Renaming.shift (old new : Store) : Renaming := fun kind c =>
  if c.id < old.count kind then c else ⟨c.id - old.count kind + new.count kind⟩

/-- The operation under its other names. -/
def Operation.rename (ρ : Renaming) (op : Operation) : Operation :=
  ⟨op.name, ρ op.kind op.target, op.term.rename ρ⟩

theorem Store.read_allocate_of_ne (s : Store) {kind other : Kind} (value : kind.Content)
    {cell : Cell other} (h : (⟨other, cell⟩ : Variable) ≠ ⟨kind, (s.allocate value).2⟩) :
    (s.allocate value).1.read cell = s.read cell := by
  by_cases has : s.Has cell
  · exact s.read_allocate_of_has value has
  · by_cases same : other = kind
    · subst same
      have beyond : s.count other ≤ cell.id := Nat.le_of_not_lt has
      have differs : cell.id ≠ s.count other := by
        intro eq
        obtain ⟨id⟩ := cell
        dsimp only at eq
        exact h (by rw [eq]; rfl)
      have outside : ¬ cell.id < (s.contents other).size := has
      have outside' : ¬ cell.id < (s.contents other).size + 1 := by
        change ¬ cell.id < s.count other + 1
        omega
      simp [read, allocate, outside, outside']
    · simp [read, allocate, contents_withContents_of_ne s same]

/-- The names of `base` for the cells of `old`; all further cells are moved behind those of
`new`. -/
def Renaming.extend (base : Renaming) (old new : Store) : Renaming := fun kind c =>
  if c.id < old.count kind then base kind c else ⟨c.id - old.count kind + new.count kind⟩

/-- The errors are the same, or both are about the text.  An error about the text may quote what a
cell holds, so the causes may differ. -/
def Error.SameVariant : Error → Error → Prop
  | malformed _, malformed _ => True
  | e, e' => e = e'

theorem Error.SameVariant.refl (e : Error) : e.SameVariant e := by
  cases e
  case malformed => trivial
  all_goals exact rfl

/-- A text that is compiled twice. -/
structure Recompilation where
  /-- What the first compilation starts with. -/
  old : Store
  /-- What the second compilation starts with. -/
  new : Store
  /-- The names that the old cells have in the second store. -/
  base : Renaming
  /-- The sequences that the text reads hold in the second store what they hold in the first. -/
  agree : Prop
  /-- The names that the text reads are bound in the second store only if they are in the first. -/
  mirror : Prop

namespace Recompilation

variable (r : Recompilation)

/-- The names of the second compilation. -/
def rename : Renaming := .extend r.base r.old r.new

/-- The second compilation fails where the first does. -/
def Exact : Prop := r.agree ∧ r.mirror

/-- The cell is new, or there in the second store. -/
def Known {kind : Kind} (c : Cell kind) : Prop := r.old.Has c → r.new.Has (r.base kind c)

variable {r} in
theorem known_of_new {kind : Kind} {c : Cell kind} (new : ¬ r.old.Has c) : r.Known c :=
  fun has => absurd has new

theorem rename_of_has {kind : Kind} {c : Cell kind} (has : r.old.Has c) :
    r.rename kind c = r.base kind c := if_pos has

theorem rename_of_not_has {kind : Kind} {c : Cell kind} (new : ¬ r.old.Has c) :
    r.rename kind c = ⟨c.id - r.old.count kind + r.new.count kind⟩ := if_neg new

theorem not_has_rename {kind : Kind} {c : Cell kind} (new : ¬ r.old.Has c) :
    ¬ r.new.Has (r.rename kind c) := by
  rw [rename_of_not_has r new]
  exact Nat.not_lt.2 (Nat.le_add_left _ _)

/-- A new cell shares its name with no cell that is known. -/
theorem eq_of_rename_eq {kind : Kind} {c c' : Cell kind} (new : ¬ r.old.Has c) (known : r.Known c')
    (h : r.rename kind c = r.rename kind c') : c = c' := by
  by_cases has : r.old.Has c'
  · have there := known has
    rw [← r.rename_of_has has, ← h] at there
    exact absurd there (r.not_has_rename new)
  · rw [r.rename_of_not_has new, r.rename_of_not_has has] at h
    have behind : r.old.count kind ≤ c.id := Nat.le_of_not_lt new
    have behind' : r.old.count kind ≤ c'.id := Nat.le_of_not_lt has
    obtain ⟨i⟩ := c
    obtain ⟨j⟩ := c'
    simp only [Cell.mk.injEq] at h behind behind' ⊢
    omega

/-! ### Corresponding variables, items and drafts -/

/-- An old sequence holds in the second store, under the other names, what it holds in the first,
and its cells are there in both. -/
structure Kept (c : Cell .sequence) : Prop where
  read : r.new.read (r.base .sequence c) = (r.old.read c).rename r.base
  cells : ∀ x ∈ (r.old.read c).cells, r.old.Has x ∧ r.new.Has (r.base .integer x)

/-- The second variable is the first under its other name.  If it is an old sequence and sequences
agree, then it holds the same. -/
structure Like (v v' : Variable) : Prop where
  eq : v' = v.rename r.rename
  known : r.Known v.cell
  kept : r.agree → ∀ c, v = ⟨.sequence, c⟩ → r.old.Has c → r.Kept c

theorem like_of_new {v : Variable} (h : ¬ r.old.Has v.cell) : r.Like v (v.rename r.rename) :=
  ⟨rfl, known_of_new h, by rintro - c rfl has; exact absurd has h⟩

/-- Items that stand for corresponding variables. -/
inductive LikeItem : Item → Item → Prop
  | symbol (s : Symbol) : LikeItem (.symbol s) (.symbol s)
  | function (f : Builtin) : LikeItem (.function f) (.function f)
  | value {v v' : Variable} (h : r.Like v v') : LikeItem (.value v) (.value v')

/-- Drafts that are the same up to the names of cells. -/
structure Alike (d d' : Draft) : Prop where
  /-- The first draft begins with the old cells. -/
  old : r.old.Extends d.store
  /-- The second draft begins with the new cells. -/
  new : r.new.Extends d'.store
  /-- As many cells have been created. -/
  count : ∀ kind,
    d'.store.count kind + r.old.count kind = d.store.count kind + r.new.count kind
  /-- What has been created holds the same; for sequences, if sequences agree. -/
  contents : ∀ {kind : Kind} (c : Cell kind), ¬ r.old.Has c → (kind = .sequence → r.agree) →
    d'.store.read (r.rename kind c) = kind.renameContent r.rename (d.store.read c)
  /-- The sequences that have been created refer to cells that are known, if sequences agree. -/
  cells : ∀ c : Cell .sequence, ¬ r.old.Has c → r.agree → ∀ x ∈ (d.store.read c).cells, r.Known x
  /-- The same cells are noted as literals. -/
  constants : d'.constants = d.constants.map fun entry => (r.rename .integer entry.1, entry.2)
  /-- Literals are new. -/
  literals : ∀ entry ∈ d.constants, ¬ r.old.Has entry.1
  /-- The same operations have been emitted. -/
  program : d'.program = d.program.map (Operation.rename r.rename)
  /-- Their operands and targets are known. -/
  known : ∀ op ∈ d.program, ∀ v ∈ op.output :: op.term.operands, r.Known v.cell

variable {r}

theorem Alike.start : r.Alike { store := r.old } { store := r.new } where
  old := .refl _
  new := .refl _
  count kind := Nat.add_comm _ _
  contents {kind} c new _ := by
    have absent : ¬ c.id < (r.old.contents kind).size := new
    have absent' : ¬ (r.rename kind c).id < (r.new.contents kind).size := r.not_has_rename new
    have blank : kind.renameContent r.rename kind.blank = kind.blank := by cases kind <;> rfl
    simp [Store.read, absent, absent', blank]
  cells c new _ x mem := by
    have absent : ¬ c.id < (r.old.contents .sequence).size := new
    have blank : r.old.read c = Kind.blank .sequence := by simp [Store.read, absent]
    have mem : x ∈ Kind.cellsOf .sequence (r.old.read c) := mem
    rw [blank, Kind.cellsOf_blank] at mem
    cases mem
  constants := rfl
  literals := nofun
  program := rfl
  known := nofun

variable {d d' : Draft}

theorem Alike.not_has_next (h : r.Alike d d') (kind : Kind) :
    ¬ r.old.Has (⟨d.store.count kind⟩ : Cell kind) := fun less =>
  d.store.not_has_allocate kind.blank (h.old.has less)

/-- The next cell of the second draft is the next cell of the first under its other name. -/
theorem Alike.rename_next (h : r.Alike d d') {kind : Kind} (value value' : kind.Content) :
    r.rename kind (d.store.allocate value).2 = (d'.store.allocate value').2 := by
  change r.rename kind ⟨d.store.count kind⟩ = ⟨d'.store.count kind⟩
  have count := h.count kind
  have more : r.old.count kind ≤ d.store.count kind := Nat.le_of_not_lt (h.not_has_next kind)
  rw [rename_of_not_has r (h.not_has_next kind)]
  exact congrArg Cell.mk (by dsimp only; omega)

/-- A new cell is there in the second draft if it is in the first. -/
theorem Alike.has (h : r.Alike d d') {kind : Kind} {c : Cell kind} (new : ¬ r.old.Has c)
    (has : d.store.Has c) : d'.store.Has (r.rename kind c) := by
  have count := h.count kind
  have behind : r.old.count kind ≤ c.id := Nat.le_of_not_lt new
  have there : c.id < d.store.count kind := has
  rw [r.rename_of_not_has new]
  change c.id - r.old.count kind + r.new.count kind < d'.store.count kind
  omega

/-- What a sequence in reach holds in the second draft; its cells are known. -/
theorem Alike.read_sequence (h : r.Alike d d') (agree : r.agree) {c : Cell .sequence} {v : Variable}
    (like : r.Like ⟨.sequence, c⟩ v) :
    d'.store.read (r.rename .sequence c) = (d.store.read c).rename r.rename ∧
      ∀ x ∈ (d.store.read c).cells, r.Known x := by
  by_cases has : r.old.Has c
  · obtain ⟨kept, cells⟩ := like.kept agree c rfl has
    have there : r.new.Has (r.base .sequence c) := like.known has
    rw [r.rename_of_has has, h.new.read there, h.old.read has, kept]
    refine ⟨IndexSequence.rename_congr _ fun x mem => ?_, fun x mem _ => (cells x mem).2⟩
    exact (r.rename_of_has (cells x mem).1).symm
  · exact ⟨h.contents c has fun _ => agree, h.cells c has agree⟩

/-- Literals are known in both drafts. -/
theorem Alike.constant (h : r.Alike d d') {c : Cell .integer} (known : r.Known c) :
    d'.constant (r.rename .integer c) = d.constant c := by
  have literals := h.literals
  rw [Draft.constant, Draft.constant, h.constants]
  generalize d.constants = entries at literals ⊢
  induction entries with
  | nil => rfl
  | cons entry entries ih =>
    obtain ⟨other, value⟩ := entry
    have new : ¬ r.old.Has other := literals (other, value) List.mem_cons_self
    rw [List.map_cons, List.lookup_cons, List.lookup_cons,
      ih fun entry mem => literals entry (List.mem_cons_of_mem _ mem)]
    by_cases same : c = other
    · rw [same, beq_self_eq_true, beq_self_eq_true]
    · have differ : r.rename .integer c ≠ r.rename .integer other := fun eq =>
        same (r.eq_of_rename_eq new known eq.symm).symm
      rw [beq_false_of_ne same, beq_false_of_ne differ]

variable (r)

/-! ### Corresponding results -/

section Follows

variable {ε α β : Type}

/-- The second result corresponds to the first. -/
structure Follows (x x' : Except ε α) (R : α → α → Prop) : Prop where
  ok : ∀ ⦃a⦄, x = .ok a → (r.agree → ∃ a', x' = .ok a') ∧ ∀ ⦃a'⦄, x' = .ok a' → R a a'
  error : r.Exact → ∀ ⦃e⦄, x = .error e → ∃ e', x' = .error e'

variable {r} {R : α → α → Prop} {S : β → β → Prop}

theorem follows_ok {a a' : α} (h : R a a') : r.Follows (.ok a : Except ε α) (.ok a') R where
  ok b ok := by
    cases ok
    exact ⟨fun _ => ⟨a', rfl⟩, fun b' ok' => by cases ok'; exact h⟩
  error _ _ failed := by cases failed

theorem follows_error {e e' : ε} : r.Follows (.error e) (.error e') R :=
  ⟨nofun, fun _ _ _ => ⟨e', rfl⟩⟩

theorem Follows.bind {x x' : Except ε α} {f f' : α → Except ε β} (h : r.Follows x x' R)
    (hf : ∀ a a', R a a' → r.Follows (f a) (f' a') S) :
    r.Follows (x >>= f) (x' >>= f') S where
  ok b ok := by
    obtain ⟨a, first, second⟩ := except_bind_eq_ok_iff.1 ok
    obtain ⟨success, result⟩ := h.ok first
    refine ⟨fun agree => ?_, fun b' ok' => ?_⟩
    · obtain ⟨a', first'⟩ := success agree
      obtain ⟨b', second'⟩ := ((hf a a' (result first')).ok second).1 agree
      exact ⟨b', except_bind_eq_ok_iff.2 ⟨a', first', second'⟩⟩
    · obtain ⟨a', first', second'⟩ := except_bind_eq_ok_iff.1 ok'
      exact ((hf a a' (result first')).ok second).2 second'
  error exact e failed := by
    rcases except_bind_eq_error_iff.1 failed with first | ⟨a, first, second⟩
    · obtain ⟨e', first'⟩ := h.error exact first
      exact ⟨e', except_bind_eq_error_iff.2 (.inl first')⟩
    · obtain ⟨success, result⟩ := h.ok first
      obtain ⟨a', first'⟩ := success exact.1
      obtain ⟨e', second'⟩ := (hf a a' (result first')).error exact second
      exact ⟨e', except_bind_eq_error_iff.2 (.inr ⟨a', first', second'⟩)⟩

theorem follows_mapM {γ : Type} {T : γ → γ → Prop} {xs ys : List γ} {f f' : γ → Except ε α}
    (h : List.Forall₂ T xs ys) (hf : ∀ x y, T x y → r.Follows (f x) (f' y) R) :
    r.Follows (xs.mapM f) (ys.mapM f') (List.Forall₂ R) := by
  induction h with
  | nil => exact follows_ok .nil
  | cons like _ ih =>
    rw [List.mapM_cons, List.mapM_cons]
    exact (hf _ _ like).bind fun _ _ one => ih.bind fun _ _ more => follows_ok (.cons one more)

end Follows

/-! ### Computations in lockstep -/

/-- The second computation takes drafts that are like those of the first to drafts and results that
are like those of the first, and fails where the first does. -/
structure Lockstep {α : Type} (m m' : Build α) (R : α → α → Prop) : Prop where
  ok : ∀ ⦃d d' a d₁⦄, r.Alike d d' → m d = .ok a d₁ → (r.agree → ∃ a' d₁', m' d' = .ok a' d₁') ∧
    ∀ ⦃a' d₁'⦄, m' d' = .ok a' d₁' → R a a' ∧ r.Alike d₁ d₁'
  error : r.Exact → ∀ ⦃d d' e d₁⦄, r.Alike d d' → m d = .error e d₁ →
    ∃ e' d₁', m' d' = .error e' d₁' ∧ e.SameVariant e'

section Steps

open Build

variable {r} {α β : Type} {R : α → α → Prop} {S : β → β → Prop}

/-- A computation that succeeds in both drafts. -/
theorem Lockstep.of_eq {m m' : Build α} (h : ∀ d d', r.Alike d d' → ∃ a a' d₁ d₁',
    m d = .ok a d₁ ∧ m' d' = .ok a' d₁' ∧ R a a' ∧ r.Alike d₁ d₁') : r.Lockstep m m' R where
  ok d d' a d₁ alike run := by
    obtain ⟨b, b', d₂, d₂', one, two, like, after⟩ := h d d' alike
    rw [one] at run
    cases run
    refine ⟨fun _ => ⟨b', d₂', two⟩, fun a' d₁' run' => ?_⟩
    rw [two] at run'
    cases run'
    exact ⟨like, after⟩
  error _ d d' e d₁ alike failed := by
    obtain ⟨_, _, _, _, one, -⟩ := h d d' alike
    rw [one] at failed
    cases failed

theorem lockstep_pure {a a' : α} (h : R a a') : r.Lockstep (pure a) (pure a') R :=
  .of_eq fun d d' alike => ⟨a, a', d, d', rfl, rfl, h, alike⟩

theorem lockstep_throw {e : Error} {m' : Build α}
    (h : r.Exact → ∃ e', m' = throw e' ∧ e.SameVariant e') : r.Lockstep (throw e) m' R where
  ok _ _ _ _ _ run := absurd run throw_ne_ok
  error exact _ d' _ _ _ failed := by
    cases failed
    obtain ⟨e', rfl, same⟩ := h exact
    exact ⟨e', d', rfl, same⟩

theorem lockstep_fail {cause cause' : Malformed} :
    r.Lockstep (fail cause : Build α) (fail cause') R :=
  lockstep_throw fun _ => ⟨_, rfl, trivial⟩

theorem Lockstep.bind {m m' : Build α} {f f' : α → Build β} (h : r.Lockstep m m' R)
    (hf : ∀ a a', R a a' → r.Lockstep (f a) (f' a') S) :
    r.Lockstep (m >>= f) (m' >>= f') S where
  ok d d' b d₂ alike run := by
    obtain ⟨a, d₁, first, second⟩ := bind_eq_ok_iff.1 run
    obtain ⟨success, result⟩ := h.ok alike first
    refine ⟨fun agree => ?_, fun b' d₂' run' => ?_⟩
    · obtain ⟨a', d₁', first'⟩ := success agree
      obtain ⟨like, between⟩ := result first'
      obtain ⟨b', d₂', second'⟩ := ((hf a a' like).ok between second).1 agree
      exact ⟨b', d₂', bind_eq_ok_iff.2 ⟨a', d₁', first', second'⟩⟩
    · obtain ⟨a', d₁', first', second'⟩ := bind_eq_ok_iff.1 run'
      obtain ⟨like, between⟩ := result first'
      exact ((hf a a' like).ok between second).2 second'
  error exact d d' e d₂ alike failed := by
    rcases bind_eq_error_iff.1 failed with first | ⟨a, d₁, first, second⟩
    · obtain ⟨e', d₂', first', same⟩ := h.error exact alike first
      exact ⟨e', d₂', bind_eq_error_iff.2 (.inl first'), same⟩
    · obtain ⟨success, result⟩ := h.ok alike first
      obtain ⟨a', d₁', first'⟩ := success exact.1
      obtain ⟨like, between⟩ := result first'
      obtain ⟨e', d₂', second', same⟩ := (hf a a' like).error exact between second
      exact ⟨e', d₂', bind_eq_error_iff.2 (.inr ⟨a', d₁', first', second'⟩), same⟩

theorem lockstep_get {f f' : Draft → Build α}
    (h : ∀ d d', r.Alike d d' → r.Lockstep (f d) (f' d') R) :
    r.Lockstep (get >>= f) (get >>= f') R :=
  Lockstep.bind (R := r.Alike) (.of_eq fun d d' alike => ⟨d, d', d, d', rfl, rfl, alike, alike⟩) h

theorem lockstep_ofExcept {x x' : Except Malformed α} (h : r.Follows x x' R) :
    r.Lockstep (ofExcept x) (ofExcept x') R where
  ok d d' a d₁ alike run := by
    obtain ⟨ok, rfl⟩ := ofExcept_eq_ok_iff.1 run
    refine ⟨fun agree => ?_, fun a' d₁' run' => ?_⟩
    · obtain ⟨a', ok'⟩ := (h.ok ok).1 agree
      exact ⟨a', d', ofExcept_eq_ok_iff.2 ⟨ok', rfl⟩⟩
    · obtain ⟨ok', rfl⟩ := ofExcept_eq_ok_iff.1 run'
      exact ⟨(h.ok ok).2 ok', alike⟩
  error exact d d' e d₁ _ failed := by
    cases x with
    | ok a => cases failed
    | error cause =>
      cases failed
      obtain ⟨cause', failed'⟩ := h.error exact rfl
      exact ⟨.malformed cause', d', by rw [failed']; rfl, trivial⟩

theorem lockstep_ofOption {cause : Malformed} {o o' : Option α} (h : Option.Rel R o o') :
    r.Lockstep (ofOption cause o) (ofOption cause o') R := by
  cases h with
  | some like => exact lockstep_pure like
  | none => exact lockstep_fail

theorem lockstep_require {condition condition' : Bool} {cause : Malformed}
    (h : condition' = condition) :
    r.Lockstep (require condition cause) (require condition' cause) fun _ _ => True := by
  subst h
  cases condition' with
  | true => exact lockstep_pure trivial
  | false => exact lockstep_fail

theorem lockstep_mapM {γ : Type} {T : γ → γ → Prop} {xs ys : List γ} {f f' : γ → Build α}
    (h : List.Forall₂ T xs ys) (hf : ∀ x y, T x y → r.Lockstep (f x) (f' y) R) :
    r.Lockstep (xs.mapM f) (ys.mapM f') (List.Forall₂ R) := by
  induction h with
  | nil => exact lockstep_pure .nil
  | cons like _ ih =>
    rw [List.mapM_cons, List.mapM_cons]
    exact (hf _ _ like).bind fun _ _ one => ih.bind fun _ _ more => lockstep_pure (.cons one more)

/-- Events make no difference. -/
theorem Alike.report {d d' : Draft} (h : r.Alike d d') (log log' : List Event) :
    r.Alike { d with log } { d' with log := log' } :=
  { h with }

/-- A computation that only reports answers or fails in the same way. -/
theorem lockstep_ofLogged {m : Logged α} (h : m.Oblivious) :
    r.Lockstep (ofLogged m) (ofLogged m) fun a a' => a' = a ∧ ∃ log log', m log = .ok a log' := by
  rcases h with ⟨a, runs⟩ | ⟨e, fails⟩
  · refine .of_eq fun d d' alike => ?_
    obtain ⟨log, run⟩ := runs d.log
    obtain ⟨log', run'⟩ := runs d'.log
    exact ⟨a, a, _, _, ofLogged_eq_ok_iff.2 ⟨log, run, rfl⟩, ofLogged_eq_ok_iff.2 ⟨log', run', rfl⟩,
      ⟨rfl, _, _, run⟩, alike.report log log'⟩
  · have failed : ∀ d, ∃ d₁, ofLogged m d = .error e d₁ := by
      intro d
      obtain ⟨log, run⟩ := fails d.log
      exact ⟨{ d with log }, by simp only [ofLogged, run]⟩
    constructor
    · intro d _ _ _ _ run
      obtain ⟨_, run'⟩ := failed d
      rw [run'] at run
      cases run
    · intro _ d d' _ _ _ run
      obtain ⟨_, run₁⟩ := failed d
      obtain ⟨d₁', run'⟩ := failed d'
      rw [run₁] at run
      cases run
      exact ⟨e, d₁', run', .refl e⟩

/-- Both drafts get a new cell. -/
theorem Alike.allocate {d d' : Draft} (h : r.Alike d d') {kind : Kind} {value value' : kind.Content}
    (same : (kind = .sequence → r.agree) → value' = kind.renameContent r.rename value)
    (known : r.agree → ∀ x ∈ kind.cellsOf value, r.Known x) :
    r.Alike { d with store := (d.store.allocate value).1 }
      { d' with store := (d'.store.allocate value').1 } where
  old := h.old.trans (d.store.extends_allocate value)
  new := h.new.trans (d'.store.extends_allocate value')
  count other := by
    have count := h.count other
    rw [Store.count_allocate, Store.count_allocate]
    omega
  contents {other} c new agrees := by
    by_cases last : (⟨other, c⟩ : Variable) = ⟨kind, (d.store.allocate value).2⟩
    · cases last
      rw [h.rename_next value value', Store.read_allocate_self, Store.read_allocate_self,
        same agrees]
    · have last' : (⟨other, r.rename other c⟩ : Variable) ≠
          ⟨kind, (d'.store.allocate value').2⟩ := by
        intro eq
        obtain rfl := congrArg Variable.kind eq
        rw [← h.rename_next value value'] at eq
        have differ := r.eq_of_rename_eq new (known_of_new (h.not_has_next other))
          (eq_of_heq (Variable.mk.inj eq).2)
        exact last (by rw [differ]; rfl)
      rw [Store.read_allocate_of_ne _ _ last, Store.read_allocate_of_ne _ _ last']
      exact h.contents c new agrees
  cells c new agree x mem := by
    by_cases last : (⟨.sequence, c⟩ : Variable) = ⟨kind, (d.store.allocate value).2⟩
    · cases last
      rw [Store.read_allocate_self] at mem
      exact known agree x mem
    · rw [Store.read_allocate_of_ne _ _ last] at mem
      exact h.cells c new agree x mem
  constants := h.constants
  literals := h.literals
  program := h.program
  known := h.known

/-- Both drafts get a new cell that holds nothing yet. -/
theorem Alike.allocate_blank {d d' : Draft} (h : r.Alike d d') (kind : Kind) :
    r.Alike { d with store := (d.store.allocate kind.blank).1 }
      { d' with store := (d'.store.allocate kind.blank).1 } := by
  refine h.allocate (fun _ => ?_) fun _ x mem => ?_
  · cases kind <;> rfl
  · rw [Kind.cellsOf_blank] at mem
    cases mem

theorem like_next {d d' : Draft} (h : r.Alike d d') {kind : Kind} (value value' : kind.Content) :
    r.Like ⟨kind, (d.store.allocate value).2⟩ ⟨kind, (d'.store.allocate value').2⟩ := by
  have like := r.like_of_new (v := ⟨kind, (d.store.allocate value).2⟩) (h.not_has_next kind)
  have next := h.rename_next value value'
  rw [← next]
  exact like

theorem lockstep_integerLiteral (n : Int64) :
    r.Lockstep (integerLiteral n) (integerLiteral n) r.Like := by
  refine .of_eq fun d d' alike =>
    ⟨_, _, _, _, integerLiteral_eq n d, integerLiteral_eq n d', ?_, ?_⟩
  · exact @like_next _ _ _ alike .integer n n
  · have after := @Alike.allocate _ _ _ alike .integer n n (fun _ => rfl) nofun
    refine { after with constants := ?_, literals := ?_ }
    · rw [List.map_cons, @Alike.rename_next _ _ _ alike .integer n n, alike.constants]
    · exact List.forall_mem_cons.2 ⟨alike.not_has_next .integer, alike.literals⟩

theorem lockstep_doubleLiteral (x : Float) :
    r.Lockstep (doubleLiteral x) (doubleLiteral x) r.Like := by
  refine .of_eq fun d d' alike => ⟨_, _, _, _, doubleLiteral_eq x d, doubleLiteral_eq x d', ?_, ?_⟩
  · exact @like_next _ _ _ alike .double x x
  · have after := @Alike.allocate _ _ _ alike .double x x (fun _ => rfl) nofun
    exact { after with }

theorem lockstep_sequenceVariable {s s' : IndexSequence}
    (h : r.agree → s' = s.rename r.rename ∧ ∀ x ∈ s.cells, r.Known x) :
    r.Lockstep (sequenceVariable s) (sequenceVariable s') r.Like := by
  refine .of_eq fun d d' alike =>
    ⟨_, _, _, _, sequenceVariable_eq s d, sequenceVariable_eq s' d', ?_, ?_⟩
  · exact @like_next _ _ _ alike .sequence s s'
  · have after := @Alike.allocate _ _ _ alike .sequence s s' (fun agrees => (h (agrees rfl)).1)
      fun agree => (h agree).2
    exact { after with }

/-- Both drafts get an operation. -/
theorem Alike.emitted {d d' : Draft} (h : r.Alike d d') {op op' : Operation}
    (eq : op' = op.rename r.rename)
    (known : ∀ v ∈ op.output :: op.term.operands, r.Known v.cell) :
    r.Alike (d.emitted op) (d'.emitted op') := by
  refine { h with program := ?_, known := ?_ }
  · change d'.program ++ [op'] = (d.program ++ [op]).map _
    rw [List.map_append, h.program, eq]
    rfl
  · exact List.forall_mem_append.2 ⟨h.known, List.forall_mem_singleton.2 known⟩

variable (r) in
/-- Operations with corresponding operands and targets; the target is new. -/
structure LikeOperation (op op' : Operation) : Prop where
  eq : op' = op.rename r.rename
  new : ¬ r.old.Has op.target
  known : ∀ v ∈ op.term.operands, r.Known v.cell

theorem known_of_usesBut {recipe : Recipe} {constant : Cell .integer → Option Int64}
    {vs : List Variable} (h : recipe.UsesBut constant vs) (known : ∀ v ∈ vs, r.Known v.cell) :
    ∀ v ∈ recipe.term.operands, r.Known v.cell := by
  obtain ⟨-, axis, -, operands⟩ := h
  exact fun v mem => known v (operands.mem_iff.2 (List.mem_append_left _ mem))

theorem known_of_uses {recipe : Recipe} {vs : List Variable} (h : recipe.Uses vs)
    (known : ∀ v ∈ vs, r.Known v.cell) : ∀ v ∈ recipe.term.operands, r.Known v.cell :=
  known_of_usesBut (h.usesBut fun _ => none) known

theorem lockstep_place {x x' : Except Malformed Recipe} (eq : x' = x.map (Recipe.rename r.rename))
    (known : ∀ recipe, x = .ok recipe → ∀ v ∈ recipe.term.operands, r.Known v.cell) :
    r.Lockstep (place x) (place x') r.LikeOperation := by
  subst eq
  cases x with
  | error cause => exact lockstep_fail
  | ok recipe =>
    refine .of_eq fun d d' alike => ?_
    have next := alike.rename_next recipe.kind.blank recipe.kind.blank
    have after := alike.allocate_blank recipe.kind
    refine ⟨_, _, _, _, place_eq_ok_iff.2 ⟨recipe, rfl, rfl, rfl⟩,
      place_eq_ok_iff.2 ⟨recipe.rename r.rename, rfl, rfl, rfl⟩,
      ⟨?_, alike.not_has_next recipe.kind, known recipe rfl⟩, { after with }⟩
    rw [Operation.rename]
    exact congrArg (Recipe.into (recipe.rename r.rename)) next.symm

theorem lockstep_emit {op op' : Operation} (h : r.LikeOperation op op') :
    r.Lockstep (emit op) (emit op') r.Like := by
  refine .of_eq fun d d' alike => ⟨_, _, _, _, emit_eq op d, emit_eq op' d', ?_, ?_⟩
  · rw [h.eq]
    exact @like_of_new r op.output h.new
  · exact alike.emitted h.eq (List.forall_mem_cons.2 ⟨known_of_new h.new, h.known⟩)

theorem lockstep_emitRecipe {x x' : Except Malformed Recipe}
    (eq : x' = x.map (Recipe.rename r.rename))
    (known : ∀ recipe, x = .ok recipe → ∀ v ∈ recipe.term.operands, r.Known v.cell) :
    r.Lockstep (emitRecipe x) (emitRecipe x') r.Like :=
  (lockstep_place eq known).bind fun _ _ => lockstep_emit

end Steps

end Recompilation

end MatrixCalc
