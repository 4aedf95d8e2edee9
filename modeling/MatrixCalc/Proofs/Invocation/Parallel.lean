import MatrixCalc.Proofs.Invocation.Pairing

/-!
# Two compilations side by side

Two statements are compiled, and both are performed.  As long as they are compiled alike, the
variables that stand at corresponding places mean the same once the operations have run, each in the
store of its own statement.

* `Comparison` : two statements with what they are compiled to and the stores that result.
* `Comparison.Alike` : two variables that mean the same.
* `Comparison.Lockstep` : two computations that have related results if both succeed.
* `Comparison.lockstep_emitRecipe` : **terms of like operands leave like results.**
-/

namespace MatrixCalc

open EStateM (Result)

/-! ### Drafts on the way to a statement -/

theorem Draft.Grows.constants {d d' : Draft} (h : d.Grows d') :
    ∀ entry ∈ d.constants, entry ∈ d'.constants := by
  induction h with
  | refl => exact fun _ => id
  | tail _ step ih =>
    intro entry mem
    cases step with
    | literal => exact List.mem_cons_of_mem _ (ih entry mem)
    | allocate | count | emit | report => exact ih entry mem

/-- The second draft is reached from the first one, and no literal is noted on the way. -/
structure Draft.Resolves (d d' : Draft) : Prop where
  grows : d.Grows d'
  constants : d'.constants = d.constants

theorem Draft.Resolves.refl (d : Draft) : d.Resolves d := ⟨.refl, rfl⟩

theorem Draft.Resolves.trans {d d' d'' : Draft} (h : d.Resolves d') (h' : d'.Resolves d'') :
    d.Resolves d'' := ⟨h.grows.trans h'.grows, h'.constants.trans h.constants⟩

/-- A statement with what it is compiled to and what its operations leave, without the one that
assigns the value. -/
structure Side where
  /-- The store before the statement. -/
  start : Store
  /-- What the statement is compiled to. -/
  draft : Draft
  /-- The store after the operations. -/
  store : Store
  /-- The cells of the sequences that were there before exist. -/
  closed : start.Closed
  /-- Nothing that was there before has been overwritten. -/
  kept : start.Extends store
  /-- Every operation has left the value of its term. -/
  computed : ∀ op ∈ draft.program, op.term.eval store = .ok (store.read op.target)
  /-- No sequence has been overwritten. -/
  sequences : ∀ c : Cell .sequence, draft.store.Has c → store.read c = draft.store.read c

/-- The compilation passes through the draft, and the literals noted there are what they were. -/
structure Side.Passes (x : Side) (d : Draft) : Prop where
  grows : d.Grows x.draft
  constants : ∀ entry ∈ d.constants, x.store.read entry.1 = entry.2

theorem Side.Passes.of_grows {x : Side} {d d' : Draft} (h : x.Passes d') (grows : d.Grows d') :
    x.Passes d :=
  ⟨grows.trans h.grows, fun entry mem => h.constants entry (grows.constants entry mem)⟩

/-- A sequence that a draft has is never overwritten. -/
theorem Side.Passes.read_sequence {x : Side} {d : Draft} (h : x.Passes d) {c : Cell .sequence}
    (has : d.store.Has c) : x.store.read c = d.store.read c :=
  (x.sequences c (h.grows.extends.has has)).trans (h.grows.extends.read has)

theorem Side.Passes.constant {x : Side} {d : Draft} (h : x.Passes d) {c : Cell .integer}
    {n : Int64} (known : d.constant c = some n) : x.store.read c = n := by
  obtain ⟨before, behind, split, -⟩ := List.lookup_eq_some_iff.1 known
  exact h.constants (c, n) (by rw [split]; simp)

/-- A draft of the first statement and one of the second. -/
structure Stage where
  first : Draft
  second : Draft

namespace Stage

/-- Both drafts have grown. -/
structure Grows (p q : Stage) : Prop where
  first : p.first.Grows q.first
  second : p.second.Grows q.second

/-- Both drafts have grown, and no literal has been noted. -/
structure Leads (p q : Stage) : Prop where
  first : p.first.Resolves q.first
  second : p.second.Resolves q.second

variable {p q q' : Stage}

theorem Leads.refl (p : Stage) : p.Leads p := ⟨.refl _, .refl _⟩

theorem Leads.trans (h : p.Leads q) (h' : q.Leads q') : p.Leads q' :=
  ⟨h.first.trans h'.first, h.second.trans h'.second⟩

theorem Leads.grows (h : p.Leads q) : p.Grows q := ⟨h.first.grows, h.second.grows⟩

end Stage

/-- Two statements that are compared. -/
structure Comparison where
  first : Side
  second : Side

namespace Comparison

variable (r : Comparison) {p q : Stage}

/-- The compilations pass through the two drafts. -/
structure Passes (p : Stage) : Prop where
  first : r.first.Passes p.first
  second : r.second.Passes p.second

variable {r} in
theorem Passes.of_grows (h : r.Passes q) (grows : p.Grows q) : r.Passes p :=
  ⟨h.first.of_grows grows.first, h.second.of_grows grows.second⟩

/-! ### Variables that mean the same -/

/-- Two variables, written as a pair, are there; and they mean the same in the end if the
compilations pass through the two drafts. -/
inductive Alike (p : Stage) : Variable → Variable → Prop
  | intro (w : Variable) (has : p.first.store.Has (w.rename .first).cell)
      (has' : p.second.store.Has (w.rename .second).cell)
      (agrees : r.Passes p → r.first.store.Agrees r.second.store w) :
      Alike p (w.rename .first) (w.rename .second)

variable {r}

theorem alike_of_meaning {kind : Kind} {c c' : Cell kind} (has : p.first.store.Has c)
    (has' : p.second.store.Has c')
    (same : r.Passes p → r.second.store.meaning c' = r.first.store.meaning c) :
    r.Alike p ⟨kind, c⟩ ⟨kind, c'⟩ := by
  have pair := Alike.intro (r := r) (p := p) ⟨kind, c.pair c'⟩
  simp only [Variable.rename, Store.Agrees, Renaming.first_pair, Renaming.second_pair] at pair
  exact pair has has' same

/-- A relation between results that lasts when the drafts grow. -/
def Lasting {α β : Type} (R : Stage → α → β → Prop) : Prop :=
  ∀ ⦃p q⦄, p.Grows q → ∀ ⦃a b⦄, R p a b → R q a b

theorem lasting_alike : Lasting r.Alike := by
  rintro p q grows _ _ ⟨w, has, has', agrees⟩
  exact .intro w (grows.first.extends.has has) (grows.second.extends.has has') fun passes =>
    agrees (passes.of_grows grows)

theorem Lasting.forall₂ {α β : Type} {R : Stage → α → β → Prop} (h : Lasting R) :
    Lasting fun p => List.Forall₂ (R p) :=
  fun _ _ grows _ _ all => all.imp fun _ _ one => h grows one

/-- Variables side by side that mean the same. -/
abbrev AllAlike (r : Comparison) (p : Stage) : List Variable → List Variable → Prop :=
  List.Forall₂ (r.Alike p)

/-- Like variables are the first and the second names of pairs. -/
theorem AllAlike.pairs {vs vs' : List Variable} (h : r.AllAlike p vs vs') :
    ∃ ws : List Variable, vs = ws.map (Variable.rename .first) ∧
      vs' = ws.map (Variable.rename .second) ∧
      (r.Passes p → ∀ w ∈ ws, r.first.store.Agrees r.second.store w) := by
  induction h with
  | nil => exact ⟨[], rfl, rfl, nofun⟩
  | cons one _ ih =>
    obtain ⟨w, -, -, agrees⟩ := one
    obtain ⟨ws, rfl, rfl, all⟩ := ih
    refine ⟨w :: ws, rfl, rfl, fun passes u mem => ?_⟩
    rcases List.mem_cons.1 mem with rfl | mem
    · exact agrees passes
    · exact all passes u mem

/-! ### Plain results -/

section Agreed

variable {ε α β γ : Type} {R : α → α → Prop} {S : β → β → Prop}

/-- If both results are there, then they are related. -/
def Agreed (x x' : Except ε α) (R : α → α → Prop) : Prop :=
  ∀ ⦃a a'⦄, x = .ok a → x' = .ok a' → R a a'

theorem agreed_ok {a a' : α} (h : R a a') : Agreed (.ok a : Except ε α) (.ok a') R := by
  intro b b' ok ok'
  cases ok
  cases ok'
  exact h

theorem agreed_error {e : ε} {x' : Except ε α} : Agreed (.error e) x' R := nofun

theorem Agreed.bind {x x' : Except ε α} {f f' : α → Except ε β} (h : Agreed x x' R)
    (hf : ∀ a a', R a a' → Agreed (f a) (f' a') S) : Agreed (x >>= f) (x' >>= f') S := by
  intro b b' ok ok'
  obtain ⟨a, first, second⟩ := except_bind_eq_ok_iff.1 ok
  obtain ⟨a', first', second'⟩ := except_bind_eq_ok_iff.1 ok'
  exact hf a a' (h first first') second second'

theorem agreed_mapM {T : γ → γ → Prop} {xs ys : List γ} {f f' : γ → Except ε α}
    (h : List.Forall₂ T xs ys) (hf : ∀ x y, T x y → Agreed (f x) (f' y) R) :
    Agreed (xs.mapM f) (ys.mapM f') (List.Forall₂ R) := by
  induction h with
  | nil => exact agreed_ok .nil
  | cons like _ ih =>
    rw [List.mapM_cons, List.mapM_cons]
    exact (hf _ _ like).bind fun _ _ one => ih.bind fun _ _ more => agreed_ok (.cons one more)

end Agreed

/-! ### Computations in lockstep -/

variable {α β : Type} {R : Stage → α → α → Prop} {S : Stage → β → β → Prop}

/-- If both computations succeed, then they note no literals and their results are related. -/
def Lockstep (p : Stage) (m m' : Build α) (R : Stage → α → α → Prop) : Prop :=
  ∀ ⦃a a' q⦄, m p.first = .ok a q.first → m' p.second = .ok a' q.second → p.Leads q ∧ R q a a'

section Steps

open Build

variable {m m' : Build α}

theorem lockstep_pure {a a' : α} (h : R p a a') : Lockstep p (pure a) (pure a') R := by
  rintro _ _ ⟨d, d'⟩ run run'
  obtain ⟨rfl, rfl⟩ := pure_eq_ok_iff.1 run
  obtain ⟨rfl, rfl⟩ := pure_eq_ok_iff.1 run'
  exact ⟨.refl p, h⟩

theorem lockstep_fail {cause : Malformed} : Lockstep p (fail cause) m' R :=
  fun _ _ _ run _ => absurd run fail_ne_ok

theorem lockstep_fail' {cause : Malformed} : Lockstep p m (fail cause) R :=
  fun _ _ _ _ run => absurd run fail_ne_ok

theorem Lockstep.bind {f f' : α → Build β} (h : Lockstep p m m' R)
    (hf : ∀ q, p.Leads q → ∀ a a', R q a a' → Lockstep q (f a) (f' a') S) :
    Lockstep p (m >>= f) (m' >>= f') S := by
  rintro b b' q run run'
  obtain ⟨a, d, first, second⟩ := bind_eq_ok_iff.1 run
  obtain ⟨a', d', first', second'⟩ := bind_eq_ok_iff.1 run'
  obtain ⟨leads, related⟩ := @h a a' ⟨d, d'⟩ first first'
  obtain ⟨leads', related'⟩ := hf ⟨d, d'⟩ leads a a' related second second'
  exact ⟨leads.trans leads', related'⟩

/-- Only what the computations do when they succeed matters. -/
theorem Lockstep.of_runs {n n' : Build α} (h : Lockstep p n n' R)
    (first : ∀ d a d', m d = .ok a d' → n d = .ok a d')
    (second : ∀ d a d', m' d = .ok a d' → n' d = .ok a d') : Lockstep p m m' R :=
  fun _ _ _ run run' => h (first _ _ _ run) (second _ _ _ run')

theorem lockstep_get {f f' : Draft → Build α} (h : Lockstep p (f p.first) (f' p.second) R) :
    Lockstep p (get >>= f) (get >>= f') R := by
  rintro a a' q run run'
  obtain ⟨_, _, start, rest⟩ := bind_eq_ok_iff.1 run
  obtain ⟨_, _, start', rest'⟩ := bind_eq_ok_iff.1 run'
  obtain ⟨rfl, rfl⟩ := get_eq_ok_iff.1 start
  obtain ⟨rfl, rfl⟩ := get_eq_ok_iff.1 start'
  exact h rest rest'

theorem lockstep_ofExcept {x x' : Except Malformed α} (h : Agreed x x' (R p)) :
    Lockstep p (ofExcept x) (ofExcept x') R := by
  rintro a a' ⟨d, d'⟩ run run'
  obtain ⟨ok, rfl⟩ := ofExcept_eq_ok_iff.1 run
  obtain ⟨ok', rfl⟩ := ofExcept_eq_ok_iff.1 run'
  exact ⟨.refl p, h ok ok'⟩

theorem lockstep_ofOption {cause : Malformed} {o o' : Option α} (h : Option.Rel (R p) o o') :
    Lockstep p (ofOption cause o) (ofOption cause o') R := by
  cases h with
  | some related => exact lockstep_pure related
  | none => exact lockstep_fail

theorem lockstep_require {condition condition' : Bool} {cause : Malformed} :
    Lockstep p (require condition cause) (require condition' cause) fun _ _ _ => True := by
  rintro a a' ⟨d, d'⟩ run run'
  obtain ⟨-, rfl⟩ := require_eq_ok_iff.1 run
  obtain ⟨-, rfl⟩ := require_eq_ok_iff.1 run'
  exact ⟨.refl p, trivial⟩

theorem lockstep_mapM {γ : Type} {T : Stage → γ → γ → Prop} {xs ys : List γ} {f f' : γ → Build α}
    (lastingT : Lasting T) (lastingR : Lasting R) (h : List.Forall₂ (T p) xs ys)
    (hf : ∀ q x y, T q x y → Lockstep q (f x) (f' y) R) :
    Lockstep p (xs.mapM f) (ys.mapM f') fun q => List.Forall₂ (R q) := by
  induction xs generalizing p ys with
  | nil =>
    cases h
    exact lockstep_pure .nil
  | cons x xs ih =>
    obtain _ | ⟨one, more⟩ := h
    rw [List.mapM_cons, List.mapM_cons]
    refine (hf p _ _ one).bind fun q leads a a' here => ?_
    refine (ih (lastingT.forall₂ leads.grows more)).bind fun q' leads' as as' there => ?_
    exact lockstep_pure (.cons (lastingR leads'.grows here) there)

/-! ### Cells and operations -/

variable (r) in
/-- Two recipes whose terms have the same value in the end. -/
inductive LikeRecipe (p : Stage) : Recipe → Recipe → Prop
  | intro {kind : Kind} (name name' : String) (t t' : Term kind)
      (same : r.Passes p → (t'.eval r.second.store).map (kind.meaning r.second.store.read) =
        (t.eval r.first.store).map (kind.meaning r.first.store.read)) :
      LikeRecipe p ⟨name, t⟩ ⟨name', t'⟩

/-- The two names of a recipe of pairs that mean the same. -/
theorem agreed_pair {x : Except Malformed Recipe} {ws : List Variable}
    (uses : ∀ recipe, x = .ok recipe → ∀ w ∈ recipe.term.operands, w ∈ ws)
    (agree : r.Passes p → ∀ w ∈ ws, r.first.store.Agrees r.second.store w) :
    Agreed (x.map (Recipe.rename .first)) (x.map (Recipe.rename .second)) (r.LikeRecipe p) := by
  cases made : x with
  | error => exact agreed_error
  | ok recipe =>
    exact agreed_ok (.intro recipe.name recipe.name _ _ fun passes =>
      recipe.term.meaning_eval_pair fun w operand => agree passes w (uses recipe made w operand))

theorem resolves_emitRecipe {x : Except Malformed Recipe} {d d' : Draft} {v : Variable}
    (run : emitRecipe x d = .ok v d') : d.Resolves d' := by
  refine ⟨(growing_emitRecipe x).of_ok run, ?_⟩
  obtain ⟨recipe, -, -, rfl⟩ := emitRecipe_eq_ok_iff.1 run
  rfl

/-- **Terms of like operands leave like results.** -/
theorem lockstep_emitRecipe {x x' : Except Malformed Recipe} (h : Agreed x x' (r.LikeRecipe p)) :
    Lockstep p (emitRecipe x) (emitRecipe x') r.Alike := by
  rintro v v' q run run'
  have leads : p.Leads q := ⟨resolves_emitRecipe run, resolves_emitRecipe run'⟩
  obtain ⟨recipe, made, rfl, first⟩ := emitRecipe_eq_ok_iff.1 run
  obtain ⟨recipe', made', rfl, second⟩ := emitRecipe_eq_ok_iff.1 run'
  obtain ⟨name, name', t, t', same⟩ := h made made'
  rename_i kind
  refine ⟨leads, alike_of_meaning ?_ ?_ fun passes => ?_⟩
  · rw [first]
    exact p.first.store.has_allocate kind.blank
  · rw [second]
    exact p.second.store.has_allocate kind.blank
  · have equal := same (passes.of_grows leads.grows)
    -- both operations are performed later on, and leave the values of their terms
    obtain ⟨ops, more⟩ := passes.first.grows.program
    obtain ⟨ops', more'⟩ := passes.second.grows.program
    have done := r.first.computed (Recipe.into ⟨name, t⟩ (p.first.store.allocate kind.blank).2) (by
      rw [more, first]
      simp [Draft.emitting])
    have done' := r.second.computed
      (Recipe.into ⟨name', t'⟩ (p.second.store.allocate kind.blank).2) (by
        rw [more', second]
        simp [Draft.emitting])
    simp only [Recipe.into] at done done'
    rw [done, done'] at equal
    exact Except.ok.inj equal

/-- Sequences of the same indices are like variables. -/
theorem lockstep_sequenceVariable {s s' : IndexSequence}
    (h : r.Passes p → ∀ size, s'.indices r.second.store.read size =
      s.indices r.first.store.read size) :
    Lockstep p (sequenceVariable s) (sequenceVariable s') r.Alike := by
  rintro v v' q run run'
  have first : p.first.Resolves q.first := by
    refine ⟨(growing_sequenceVariable s).of_ok run, ?_⟩
    rw [sequenceVariable_eq] at run
    injection run with _ eq
    rw [← eq]
  have second : p.second.Resolves q.second := by
    refine ⟨(growing_sequenceVariable s').of_ok run', ?_⟩
    rw [sequenceVariable_eq] at run'
    injection run' with _ eq
    rw [← eq]
  obtain ⟨d, d'⟩ := q
  rw [sequenceVariable_eq] at run run'
  cases run
  cases run'
  have has := @Store.has_allocate p.first.store .sequence s
  have has' := @Store.has_allocate p.second.store .sequence s'
  refine ⟨⟨first, second⟩, alike_of_meaning has has' fun passes => ?_⟩
  have holds := (passes.first.read_sequence has).trans
    (@Store.read_allocate_self p.first.store .sequence s)
  have holds' := (passes.second.read_sequence has').trans
    (@Store.read_allocate_self p.second.store .sequence s')
  funext size
  simp only [Store.meaning, Kind.meaning, holds, holds']
  exact h (passes.of_grows ⟨first.grows, second.grows⟩) size

end Steps

end Comparison

end MatrixCalc
