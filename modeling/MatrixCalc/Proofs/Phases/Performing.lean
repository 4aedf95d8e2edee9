import Mathlib
import MatrixCalc.Operation.Basic

/-!
# How performing fails

A term is computed from contents that were not known when the statement was compiled, so it can
still fail: shapes need not fit, and a computation need not have a result.  Three functions ask for
the singular values of a matrix, and break down with it if it has none.

* `Error.OfPerforming` : the errors that are about contents.
* `Term.Orderly` : arithmetic on integers is one of the four operations that integers have.
* `Term.Regular` : what holds of the terms of compiled statements.
* `Program.BreaksDown` : an operation asks for singular values that cannot be computed.
* `Program.ofPerforming_of_perform` : **a program of orderly terms fails only with errors about
  contents, unless it breaks down**, and never asks for arithmetic that integers do not have.
* `Program.perform_eq_breakdown_iff` : **when a program breaks down.**
-/

namespace MatrixCalc

/-- The failure is reported, and it is about the contents of cells.  That an integer operation does
not exist does not depend on contents, and that a computation breaks down is not reported. -/
def NumericFailure.OfContents : NumericFailure → Prop
  | notIntegral _ | breakdown _ => False
  | _ => True

/-- The error is about the contents of cells: shapes do not fit, or there is no result. -/
def Error.OfPerforming : Error → Prop
  | shape _ => True
  | numeric cause => cause.OfContents
  | malformed _ | unbound _ | reserved _ => False

/-- Integers have this arithmetic. -/
def Arith.Integral (op : Arith) : Prop :=
  op = .add ∨ op = .subtract ∨ op = .multiply ∨ op = .divide

/-- Arithmetic on integers is of a kind that integers have. -/
def Term.Orderly : {kind : Kind} → Term kind → Prop
  | _, integerArith op _ _ => op.Integral
  | _, _ => True

/-- A number is read from a matrix only at an address that means a single place. -/
def Term.Pointed : {kind : Kind} → Term kind → Prop
  | _, element _ address => address.isSingle = true
  | _, _ => True

/-- What the terms of compiled statements are like: which of them there are depends on the kinds of
their operands alone. -/
def Term.Regular {kind : Kind} (t : Term kind) : Prop := t.Orderly ∧ t.Pointed

/-! ### Computations that fail only with errors about contents -/

section Failures

variable {ε α β : Type}

theorem bind_ne_error {x : Except ε α} {f : α → Except ε β} {e : ε} (h : x ≠ .error e)
    (hf : ∀ a, f a ≠ .error e) : (x >>= f) ≠ .error e := by
  cases x with
  | ok a => exact hf a
  | error cause => exact fun eq => h (congrArg Except.error (Except.error.inj eq))

theorem map_ne_error {x : Except ε α} {f : α → β} {e : ε} (h : x ≠ .error e) :
    x.map f ≠ .error e := by
  cases x with
  | ok a => nofun
  | error cause => exact fun eq => h (congrArg Except.error (Except.error.inj eq))

/-- A failure of the computation is about contents. -/
def FailsOnContents (x : Except Error α) : Prop := ∀ e, ¬ e.OfPerforming → x ≠ .error e

namespace FailsOnContents

variable {x : Except Error α}

theorem ok (a : α) : FailsOnContents (.ok a) := nofun

theorem error {e : Error} (h : e.OfPerforming) : FailsOnContents (.error e : Except Error α) := by
  rintro e other ⟨⟩
  exact other h

theorem of_eq {e : Error} (h : FailsOnContents x) (failed : x = .error e) : e.OfPerforming :=
  Classical.byContradiction fun other => h e other failed

theorem bind (h : FailsOnContents x) {f : α → Except Error β} (hf : ∀ a, FailsOnContents (f a)) :
    FailsOnContents (x >>= f) :=
  fun e other => bind_ne_error (h e other) fun a => hf a e other

theorem map (h : FailsOnContents x) (f : α → β) : FailsOnContents (x.map f) :=
  fun e other => map_ne_error (h e other)

theorem ofShape (x : Except ShapeMismatch α) : FailsOnContents (x.mapError Error.shape) := by
  cases x with
  | ok a => exact .ok a
  | error => exact .error trivial

theorem ofNumeric {x : Except NumericFailure α}
    (h : ∀ cause : NumericFailure, ¬ cause.OfContents → x ≠ .error cause) :
    FailsOnContents (x.mapError Error.numeric) := by
  cases x with
  | ok a => exact .ok a
  | error cause => exact .error (Classical.byContradiction fun other => h cause other rfl)

end FailsOnContents

end Failures

/-! ### Kernels -/

variable {cause : NumericFailure}

theorem Arith.applyInteger_ne {op : Arith} (h : op.Integral) (other : ¬ cause.OfContents)
    (a b : Int64) : op.applyInteger a b ≠ .error cause := by
  unfold applyInteger
  rcases h with rfl | rfl | rfl | rfl
  case inr.inr.inr =>
    dsimp only
    split
    · intro eq
      cases eq
      exact other trivial
    · nofun
  all_goals nofun

theorem Matrix.failsOnContents_inverse (m : Matrix) : FailsOnContents m.inverse := by
  refine (FailsOnContents.ofShape _).bind fun _ => ?_
  split
  · exact .ok _
  · exact .error trivial

/-! ### Indices -/

namespace IndexSequence

theorem ofProgression_ne (other : ¬ cause.OfContents) (start step stop : Int64) :
    Run.ofProgression start step stop ≠ .error cause := by
  unfold Run.ofProgression
  split
  · intro eq
    cases eq
    exact other trivial
  · intro eq
    cases eq

mutual

theorem runs_ne (other : ¬ cause.OfContents) (read : Cell .integer → Int64) (size : Nat) :
    ∀ s : IndexSequence, s.runs read size ≠ .error cause
  | listed _ => nofun
  | progression _ _ _ => map_ne_error (ofProgression_ne other _ _ _)
  | span start stop => by
    rw [runs]
    exact map_ne_error (ofProgression_ne other _ _ _)
  | joined parts => runsOfParts_ne other read size parts

theorem runsOfParts_ne (other : ¬ cause.OfContents) (read : Cell .integer → Int64) (size : Nat) :
    ∀ parts : List IndexSequence, runsOfParts read size parts ≠ .error cause
  | [] => nofun
  | part :: parts => bind_ne_error (runs_ne other read size part) fun _ =>
      bind_ne_error (runsOfParts_ne other read size parts) fun _ => nofun

end

end IndexSequence

theorem Index.failsOnContents_check (axis : Axis) (size : Nat) (i : Int64) :
    FailsOnContents (check axis size i) := by
  unfold check
  split
  · exact .error trivial
  · exact .ok _

theorem Runs.failsOnContents_collectOnto {β : Type} {f : Int64 → Except Error β}
    (h : ∀ i, FailsOnContents (f i)) (done : List β) (runs : List Run) :
    FailsOnContents (collectOnto f done runs) := by
  fun_induction collectOnto f done runs with
  | case1 => exact .ok _
  | case2 _ _ _ _ _ _ _ ih => exact ih
  | case3 _ _ i _ _ e failed => exact .error ((h i).of_eq failed)

theorem Index.failsOnContents_resolve (s : Store) (axis : Axis) (size : Nat) (index : Index) :
    FailsOnContents (index.resolve s axis size) := by
  cases index with
  | single cell => exact (failsOnContents_check axis size _).map _
  | sequence cell =>
    simp only [resolve]
    have numeric := FailsOnContents.ofNumeric (x := s.runs (s.read cell) size) fun _ other =>
      IndexSequence.runs_ne other s.read size _
    split
    · rename_i cause failed
      rw [failed] at numeric
      exact .error (numeric.of_eq rfl)
    · exact Runs.failsOnContents_collectOnto (failsOnContents_check axis size) _ _

theorem Address.failsOnContents_select (s : Store) (shape : Shape) (address : Address) :
    FailsOnContents (address.select s shape) := by
  cases address with
  | flat index => exact (index.failsOnContents_resolve s _ _).map _
  | grid rows cols =>
    exact (rows.failsOnContents_resolve s _ _).bind fun _ =>
      (cols.failsOnContents_resolve s _ _).bind fun _ => .ok _

theorem Source.failsOnContents_insertInto (s : Store) (source : Source) (m : Matrix)
    (address : Address) : FailsOnContents (source.insertInto s m address) := by
  refine (address.failsOnContents_select s _).bind fun selection => ?_
  cases source with
  | matrix => exact (FailsOnContents.ofShape _).bind fun _ => .ok _
  | scalar => exact .ok _

/-! ### Literals -/

theorem Literal.block_ne (other : ¬ cause.OfContents) (s : Store) (v : Variable) :
    block s v ≠ .error cause := by
  obtain ⟨kind, cell⟩ := v
  cases kind with
  | matrix | double | integer => nofun
  | sequence => exact map_ne_error (IndexSequence.runs_ne other _ _ _)

theorem mapM_ne_error {ε α β : Type} {f : α → Except ε β} {e : ε} (h : ∀ a, f a ≠ .error e)
    (xs : List α) : xs.mapM f ≠ .error e := by
  induction xs with
  | nil => nofun
  | cons x xs ih =>
    rw [List.mapM_cons]
    exact bind_ne_error (h x) fun _ => bind_ne_error ih fun _ => nofun

theorem Literal.failsOnContents_layOut (s : Store) (rows : Literal) :
    FailsOnContents (rows.layOut s) :=
  (FailsOnContents.ofNumeric fun _ other => mapM_ne_error (fun row => mapM_ne_error (fun v =>
    block_ne other s v) row) rows).bind fun _ => (FailsOnContents.ofShape _).bind fun _ => .ok _

/-! ### Singular values -/

/-- The matrix whose singular values a term asks for: that of a pseudo-inverse, of a matrix norm
with exponent two, or of a system that is not square. -/
def Term.decomposed? (s : Store) : {kind : Kind} → Term kind → Option Matrix
  | _, matrixUnary .pseudoInverse a => some (s.read a)
  | _, normP a p =>
    let m := s.read a
    if m.isVector ∨ s.readScalar p == 1.0 then none
    else if s.readScalar p == 2.0 then some m
    else none
  | _, solve a b =>
    let m := s.read a
    if m.rows = (s.read b).rows ∧ m.rows ≠ m.cols then some m else none
  | _, _ => none

section Terms

variable {s : Store} {kind : Kind} {t : Term kind} {m : Matrix}

/-- A term that asks for singular values is computed from them alone. -/
theorem Term.exists_eval_eq (asked : t.decomposed? s = some m) :
    ∃ f, t.eval s = (m.singular.map f).mapError Error.breakdown := by
  cases t with
  | matrixUnary f a =>
    cases f with
    | pseudoInverse =>
      cases asked
      exact ⟨_, rfl⟩
    | transpose | inverse | rref | diag | identity => cases asked
  | normP a p =>
    simp only [decomposed?] at asked
    split at asked
    · cases asked
    · rename_i plain
      obtain ⟨notVector, notOne⟩ := not_or.1 plain
      split at asked
      · rename_i two
        cases asked
        simp only [eval, Matrix.normP, if_neg notVector, if_neg notOne, if_pos two,
          Matrix.spectralNorm]
        exact ⟨_, by cases (s.read a).singular <;> rfl⟩
      · cases asked
  | solve a b =>
    simp only [decomposed?] at asked
    split at asked
    · rename_i fits
      cases asked
      simp only [eval, Matrix.solve, if_neg (not_not.2 fits.1), if_neg fits.2]
      exact ⟨_, rfl⟩
    · cases asked
  | _ => cases asked

/-- A term breaks down with the matrix whose singular values it asks for. -/
theorem Term.eval_of_breakdown {cause : Breakdown} (asked : t.decomposed? s = some m)
    (broken : m.singular = .error cause) : t.eval s = .error (.breakdown cause) := by
  obtain ⟨f, eq⟩ := exists_eval_eq asked
  rw [eq, broken]
  rfl

/-- **An orderly term that asks for no singular values fails only on contents.** -/
theorem Term.failsOnContents_eval (h : t.Orderly) (unasked : t.decomposed? s = none) :
    FailsOnContents (t.eval s) := by
  cases t with
  | integerArith op a b => exact .ofNumeric fun _ other => Arith.applyInteger_ne h other _ _
  | measure | dot | matrixArith => exact .ofShape _
  | normP a p =>
    simp only [decomposed?] at unasked
    simp only [eval, Matrix.normP]
    split
    · split
      · exact .error trivial
      · exact .ok _
    · rename_i vector
      split
      · exact .ok _
      · rename_i one
        split
        · rename_i two
          rw [if_neg (not_or.2 ⟨vector, one⟩), if_pos two] at unasked
          cases unasked
        · exact .error trivial
  | element m address | submatrix m address => exact (address.failsOnContents_select s _).map _
  | onlyElement m =>
    simp only [eval]
    split
    · exact .ok _
    · exact .error trivial
  | solve a b =>
    simp only [decomposed?] at unasked
    simp only [eval, Matrix.solve]
    split
    · exact .error trivial
    · rename_i fits
      split
      · split
        · exact .ok _
        · exact .error trivial
      · rename_i square
        rw [if_pos ⟨not_not.1 fits, square⟩] at unasked
        cases unasked
  | matrixUnary f a =>
    cases f with
    | inverse => exact Matrix.failsOnContents_inverse _
    | pseudoInverse => cases unasked
    | transpose | rref | diag | identity => exact .ok _
  | filled =>
    exact (FailsOnContents.ofShape _).bind fun _ => (FailsOnContents.ofShape _).bind fun _ => .ok _
  | eye => exact (FailsOnContents.ofShape _).bind fun _ => .ok _
  | inserted m source address => exact source.failsOnContents_insertInto s _ address
  | literal rows => exact rows.failsOnContents_layOut s
  | integerUnary | integer | scalarArith | scalarUnary | scalar | broadcast | elementwise
  | reduceAlong | kron | matrix | sequence => exact .ok _

/-- **How an orderly term fails**: on contents, or it breaks down with a matrix. -/
theorem Term.ofPerforming_of_eval (h : t.Orderly) {e : Error} (failed : t.eval s = .error e) :
    e.OfPerforming ∨ ∃ m cause, t.decomposed? s = some m ∧ m.singular = .error cause ∧
      e = .breakdown cause := by
  cases asked : t.decomposed? s with
  | none => exact .inl ((failsOnContents_eval h asked).of_eq failed)
  | some m =>
    obtain ⟨f, eq⟩ := exists_eval_eq asked
    rw [eq] at failed
    cases found : m.singular with
    | ok parts =>
      rw [found] at failed
      cases failed
    | error cause =>
      rw [found] at failed
      exact .inr ⟨m, cause, rfl, found, (Except.error.inj failed).symm⟩

end Terms

/-! ### Programs -/

namespace Program

variable {program : Program} {s : Store}

/-- **A program fails where one of its operations does**, with those in front of it performed. -/
theorem perform_eq_some_iff {e : Error} :
    (program.perform s).2 = some e ↔ ∃ before op after, program = before ++ op :: after ∧
      (perform before s).2 = none ∧ op.term.eval (perform before s).1 = .error e := by
  constructor
  · intro failed
    induction program generalizing s with
    | nil => cases failed
    | cons op program ih =>
      cases step : op.perform s with
      | ok s' =>
        rw [perform, step] at failed
        obtain ⟨before, other, after, rfl, done, found⟩ := ih failed
        refine ⟨op :: before, other, after, rfl, ?_, ?_⟩
        · rwa [perform, step]
        · rwa [perform, step]
      | error cause =>
        rw [perform, step] at failed
        cases failed
        exact ⟨[], op, program, rfl, rfl, Operation.perform_eq_error_iff.1 step⟩
  · rintro ⟨before, op, after, rfl, done, found⟩
    rw [perform_append]
    cases run : perform before s with
    | mk s' failure =>
      rw [run] at done found
      cases done
      simp only [perform, Operation.perform_eq_error_iff.2 found]

/-- The program comes to an operation that asks for the singular values of a matrix, and they
cannot be computed. -/
def BreaksDown (program : Program) (s : Store) (cause : Breakdown) : Prop :=
  ∃ before op after m, program = before ++ op :: after ∧ (perform before s).2 = none ∧
    op.term.decomposed? (perform before s).1 = some m ∧ m.singular = .error cause

variable (orderly : ∀ op ∈ program, op.term.Orderly)
include orderly

/-- **A program of orderly terms fails only on contents, unless it breaks down**, whatever the store
holds. -/
theorem ofPerforming_of_perform {e : Error} (failed : (program.perform s).2 = some e) :
    e.OfPerforming ∨ ∃ cause, e = .breakdown cause ∧ program.BreaksDown s cause := by
  obtain ⟨before, op, after, rfl, done, found⟩ := perform_eq_some_iff.1 failed
  have tidy := orderly op (List.mem_append_right _ List.mem_cons_self)
  rcases Term.ofPerforming_of_eval tidy found with contents | ⟨m, cause, asked, broken, rfl⟩
  · exact .inl contents
  · exact .inr ⟨cause, rfl, before, op, after, m, rfl, done, asked, broken⟩

/-- **When a program breaks down.** -/
theorem perform_eq_breakdown_iff {cause : Breakdown} :
    (program.perform s).2 = some (.breakdown cause) ↔ program.BreaksDown s cause := by
  constructor
  · intro failed
    rcases ofPerforming_of_perform orderly failed with contents | ⟨_, same, breaks⟩
    · cases contents
    · cases same
      exact breaks
  · rintro ⟨before, op, after, m, split, done, asked, broken⟩
    exact perform_eq_some_iff.2 ⟨before, op, after, split, done,
      Term.eval_of_breakdown asked broken⟩

end Program

end MatrixCalc
