import MatrixCalc.Proofs.Requests
import MatrixCalc.Proofs.Rows

/-!
# Results run again

The results of a run are the values of the names that a session has bound in the end.  Their names
are in order and can be bound, and the rows of their matrices are of one length, so they are the
values of a workspace themselves.

* `Results.Canonical` : what makes results reusable.
* `Workspace.canonical_of_run` : **results are canonical**.
* `Workspace.results_of_defineAll` : defining canonical results gives these results.
* `Workspace.run_results` : **results are a fixed point of running**.
-/

namespace MatrixCalc

/-! ### Tables -/

namespace Bindings

variable {α : Type} {table : Bindings α} {name : String}

/-- In a table in order, an entry is what its name is bound to. -/
theorem Sorted.find?_of_mem (sorted : table.Sorted) {value : α}
    (mem : (name, value) ∈ table.entries) : table.find? name = some value := by
  obtain ⟨entries⟩ := table
  simp only [Sorted, names, find?] at sorted mem ⊢
  induction entries with
  | nil => cases mem
  | cons entry entries ih =>
    obtain ⟨other, old⟩ := entry
    simp only [List.map_cons, List.pairwise_cons] at sorted
    rw [findIn]
    rcases List.mem_cons.1 mem with same | mem
    · cases same
      rw [if_pos rfl]
    · have less : other < name := sorted.1 name (List.mem_map_of_mem (f := Prod.fst) mem)
      have differ : name ≠ other := fun same => String.lt_irrefl other (same ▸ less)
      rw [if_neg differ]
      exact ih sorted.2 mem

/-- A name behind all others is entered at the end. -/
theorem insert_of_behind (behind : ∀ entry ∈ table.entries, entry.1 < name) (value : α) :
    table.find? name = none ∧
      (table.insert name value).entries = table.entries ++ [(name, value)] := by
  obtain ⟨entries⟩ := table
  simp only [find?, insert] at behind ⊢
  induction entries with
  | nil => exact ⟨rfl, rfl⟩
  | cons entry entries ih =>
    obtain ⟨other, old⟩ := entry
    have less : other < name := behind _ List.mem_cons_self
    have differ : name ≠ other := fun same => String.lt_irrefl other (same ▸ less)
    have notLess : ¬ name < other := String.lt_asymm less
    obtain ⟨free, last⟩ := ih fun entry mem => behind entry (List.mem_cons_of_mem _ mem)
    rw [findIn, insertIn, if_neg differ, if_neg differ, if_neg notLess, free, last]
    exact ⟨rfl, rfl⟩

end Bindings

/-! ### Canonical results -/

/-- The value is that of a variable: the rows of a matrix are of one length. -/
def Value.Loads : Value → Prop
  | .matrix rows => ∃ m, Matrix.ofRows rows = .ok m ∧ m.toRows = rows
  | .double _ | .integer _ => True

/-- The results are the values of variables, with names that can be bound, in order. -/
structure Results.Canonical (results : Results) : Prop where
  /-- The names ascend. -/
  sorted : results.Sorted
  /-- The names can be bound. -/
  named : ∀ entry ∈ results.entries, bindable entry.1 = true
  /-- The values are those of variables. -/
  loads : ∀ entry ∈ results.entries, entry.2.Loads

namespace Workspace

variable {s s' : Session} {name : String} {value : Value}

theorem loads_of_valueOf? {store : Store} {v : Variable} (h : valueOf? store v = some value) :
    value.Loads := by
  rcases v with ⟨_ | _ | _ | _, cell⟩ <;> cases h
  · obtain ⟨m, ok, same, -⟩ := Matrix.ofRows_toRows _
    exact ⟨m, ok, same⟩
  · trivial
  · trivial

/-- The results of a session whose names are disciplined. -/
theorem canonical_results (disciplined : s.Disciplined) : (results s).Canonical := by
  have names : (results s).names.Sublist s.scope.names := by
    simp only [Bindings.names, results]
    induction s.scope.entries with
    | nil => exact .slnil
    | cons entry entries ih =>
      rw [List.filterMap_cons]
      cases valueOf? s.store entry.2 with
      | none => exact ih.cons _
      | some value => exact ih.cons_cons _
  have values : ∀ entry ∈ (results s).entries, ∃ v, s.scope.find? entry.1 = some v ∧
      valueOf? s.store v = some entry.2 := by
    intro entry mem
    obtain ⟨⟨name, v⟩, bound, found⟩ := List.mem_filterMap.1 mem
    obtain ⟨value, read, rfl⟩ := Option.map_eq_some_iff.1 found
    exact ⟨v, disciplined.sorted.find?_of_mem bound, read⟩
  refine ⟨List.Pairwise.sublist names disciplined.sorted, fun entry mem => ?_, fun entry mem => ?_⟩
  · obtain ⟨v, bound, -⟩ := values entry mem
    exact disciplined.bound entry.1 v bound
  · obtain ⟨v, -, read⟩ := values entry mem
    exact loads_of_valueOf? read

/-! ### Runs keep the discipline -/

theorem disciplined_of_define (disciplined : s.Disciplined) (ok : define s name value = .ok s') :
    s'.Disciplined := by
  unfold define at ok
  split at ok
  · split at ok
    · cases ok
    · exact disciplined.define (except_mapError_eq_ok_iff.1 ok)
  · exact disciplined.define (except_mapError_eq_ok_iff.1 ok)
  · exact disciplined.define (except_mapError_eq_ok_iff.1 ok)

theorem disciplined_of_defineAll (disciplined : s.Disciplined) {entries : List (String × Value)}
    (ok : defineAll s entries = .ok s') : s'.Disciplined := by
  fun_induction defineAll s entries with
  | case1 s =>
    cases ok
    exact disciplined
  | case2 s name value rest s₁ defined ih => exact ih (disciplined_of_define disciplined defined) ok
  | case3 => cases ok

theorem disciplined_of_processAll (disciplined : s.Disciplined) {texts : List String}
    {number : Nat} {events : List Event} (ok : (processAll s events number texts).1 = .ok s') :
    s'.Disciplined := by
  fun_induction processAll s events number texts with
  | case1 s =>
    cases ok
    exact disciplined
  | case2 s events number text rest program s₁ more processed ih =>
    have kept := disciplined.process text
    rw [processed] at kept
    exact ih kept ok
  | case3 => cases ok

/-- A run that succeeds ends in a session whose names are disciplined. -/
theorem exists_session_of_run {workspace : Workspace} {further : List String} {V : Results}
    (ok : (run workspace further).1 = .ok V) : ∃ s : Session, s.Disciplined ∧ results s = V := by
  unfold run at ok
  split at ok
  · cases ok
  · rename_i s₁ defined
    split at ok
    · cases ok
    · rename_i s₂ events processed
      cases ok
      have kept := disciplined_of_processAll (disciplined_of_defineAll .empty defined)
        (congrArg Prod.fst processed)
      exact ⟨s₂, kept, rfl⟩

/-- **Results are canonical.** -/
theorem canonical_of_run {workspace : Workspace} {further : List String} {V : Results}
    (ok : (run workspace further).1 = .ok V) : V.Canonical := by
  obtain ⟨s, disciplined, rfl⟩ := exists_session_of_run ok
  exact canonical_results disciplined

/-! ### Defining results -/

/-- The session with one more variable, which has a name and a content. -/
def entered (s : Session) (name : String) {kind : Kind} (content : kind.Content) : Session :=
  { s with
    store := (s.store.allocate content).1
    scope := s.scope.insert name ⟨kind, (s.store.allocate content).2⟩ }

/-- A new name gets a variable that holds its value. -/
theorem define_of_loads (named : bindable name = true) (free : s.scope.find? name = none)
    (loads : value.Loads) : ∃ (kind : Kind) (content : kind.Content),
      define s name value = .ok (entered s name content) ∧
      valueOf? (s.store.allocate content).1 ⟨kind, (s.store.allocate content).2⟩ = some value := by
  have created (kind : Kind) (content : kind.Content) :
      s.define name content = .ok (entered s name content) := by
    refine Session.define_eq_ok_iff.2 ⟨named, .inr ⟨fun cell bound => ?_, rfl⟩⟩
    cases free.symm.trans bound
  have holds (kind : Kind) (content : kind.Content) :
      (s.store.allocate content).1.read (s.store.allocate content).2 = content :=
    s.store.read_allocate_self content
  cases value with
  | matrix rows =>
    obtain ⟨m, made, same⟩ := loads
    refine ⟨.matrix, m, ?_, ?_⟩
    · simp only [define]
      split
      · rename_i failed
        cases failed.symm.trans made
      · rename_i m' made'
        cases made'.symm.trans made
        exact except_mapError_eq_ok_iff.2 (created .matrix m)
    · exact congrArg (fun m : Matrix => some (Value.matrix m.toRows)) (holds .matrix m) |>.trans
        (by rw [same])
  | double x =>
    exact ⟨.double, x, except_mapError_eq_ok_iff.2 (created .double x),
      congrArg (fun x => some (Value.double x)) (holds .double x)⟩
  | integer n =>
    exact ⟨.integer, n, except_mapError_eq_ok_iff.2 (created .integer n),
      congrArg (fun n => some (Value.integer n)) (holds .integer n)⟩

/-- What a variable holds is not changed by a new one. -/
theorem valueOf?_allocate {store : Store} {kind : Kind} (content : kind.Content) {v : Variable}
    (has : store.Has v.cell) : valueOf? (store.allocate content).1 v = valueOf? store v := by
  rcases v with ⟨_ | _ | _ | _, cell⟩
  case sequence => rfl
  all_goals
    have kept := store.read_allocate_of_has content has
    dsimp only at kept
    simp only [valueOf?, kept]

section Entered

variable {kind : Kind} (content : kind.Content) (last : ∀ old ∈ s.scope.entries, old.1 < name)
include last

theorem entries_entered : (entered s name content).scope.entries =
    s.scope.entries ++ [(name, ⟨kind, (s.store.allocate content).2⟩)] :=
  (Bindings.insert_of_behind last _).2

theorem bound_entered (bound : ∀ entry ∈ s.scope.entries, s.store.Has entry.2.cell) :
    ∀ entry ∈ (entered s name content).scope.entries,
      (entered s name content).store.Has entry.2.cell := by
  rw [entries_entered content last, List.forall_mem_append, List.forall_mem_singleton]
  exact ⟨fun old mem => (s.store.extends_allocate content).has (bound old mem),
    s.store.has_allocate content⟩

/-- The old variables are unchanged, and the new one is the last. -/
theorem results_entered (bound : ∀ entry ∈ s.scope.entries, s.store.Has entry.2.cell)
    (read : valueOf? (s.store.allocate content).1 ⟨kind, (s.store.allocate content).2⟩ =
      some value) :
    (results (entered s name content)).entries = (results s).entries ++ [(name, value)] := by
  have old : s.scope.entries.filterMap (fun entry =>
        (valueOf? (s.store.allocate content).1 entry.2).map (entry.1, ·)) =
      s.scope.entries.filterMap fun entry => (valueOf? s.store entry.2).map (entry.1, ·) :=
    List.filterMap_congr fun entry mem => by rw [valueOf?_allocate content (bound entry mem)]
  rw [results, entries_entered content last, List.filterMap_append]
  exact congrArg₂ (· ++ ·) old (by simp [entered, read])

end Entered

/-- Names behind all others, in order, are defined one after the other. -/
theorem results_of_defineAll {entries : List (String × Value)}
    (bound : ∀ entry ∈ s.scope.entries, s.store.Has entry.2.cell)
    (behind : ∀ old ∈ s.scope.entries, ∀ entry ∈ entries, old.1 < entry.1)
    (canonical : Results.Canonical ⟨entries⟩) : ∃ s', defineAll s entries = .ok s' ∧
      (results s').entries = (results s).entries ++ entries := by
  induction entries generalizing s with
  | nil => exact ⟨s, rfl, (List.append_nil _).symm⟩
  | cons entry entries ih =>
    obtain ⟨name, value⟩ := entry
    obtain ⟨sorted, named, loads⟩ := canonical
    obtain ⟨first, sorted⟩ := List.pairwise_cons.1 sorted
    have last : ∀ old ∈ s.scope.entries, old.1 < name := fun old mem =>
      behind old mem _ List.mem_cons_self
    have free : s.scope.find? name = none := (Bindings.insert_of_behind last ⟨.matrix, ⟨0⟩⟩).1
    obtain ⟨kind, content, defined, read⟩ :=
      define_of_loads (named _ List.mem_cons_self) free (loads _ List.mem_cons_self)
    have behind' : ∀ old ∈ (entered s name content).scope.entries, ∀ entry ∈ entries,
        old.1 < entry.1 := by
      rw [entries_entered content last, List.forall_mem_append, List.forall_mem_singleton]
      exact ⟨fun old mem entry inside => behind old mem entry (List.mem_cons_of_mem _ inside),
        fun entry inside => first entry.1 (List.mem_map_of_mem (f := Prod.fst) inside)⟩
    obtain ⟨s', rest, same⟩ := ih (bound_entered content last bound) behind'
      ⟨sorted, fun entry mem => named entry (List.mem_cons_of_mem _ mem),
        fun entry mem => loads entry (List.mem_cons_of_mem _ mem)⟩
    refine ⟨s', ?_, ?_⟩
    · rw [defineAll, defined]
      exact rest
    · rw [same, results_entered content last bound read, List.append_assoc, List.singleton_append]

/-- **Results are a fixed point of running.**  The workspace that gives its variables the results
of a run, and lists no statements, runs and has exactly these results. -/
theorem run_results {workspace : Workspace} {further : List String} {V : Results}
    (ok : (run workspace further).1 = .ok V) : (run { definitions := V } []).1 = .ok V := by
  obtain ⟨s, defined, same⟩ := results_of_defineAll (s := {}) (by simp) (by simp)
    (canonical_of_run ok)
  have whole : results s = V := by
    obtain ⟨entries⟩ := V
    exact congrArg Bindings.mk same
  rw [run, defined]
  simp only [List.append_nil, processAll]
  rw [whole]

/-- Numbers that are none, a matrix without rows and a sequence, which has no value. -/
theorem run_results_of_mixed : ∃ V : Results,
    (run { definitions := ⟨[("A", .matrix [[1.0, 2.0]]), ("n", .integer 3)]⟩
           statements := ["x = 0.0/0.0", "p = 1:n"] } ["B = [A; A]*x", "E = []"]).1 = .ok V ∧
    V.report = "A = [1x2]\n      1.0000     2.0000\n" ++
      "B = [2x2]\n         NaN        NaN\n         NaN        NaN\n" ++
      "E = [0x0]\nn = 3\nx = NaN\n" ∧
    (run { definitions := V } []).1 = .ok V := by
  let workspace : Workspace :=
    { definitions := ⟨[("A", .matrix [[1.0, 2.0]]), ("n", .integer 3)]⟩
      statements := ["x = 0.0/0.0", "p = 1:n"] }
  have report : (run workspace ["B = [A; A]*x", "E = []"]).1.toOption.map Results.report =
      some ("A = [1x2]\n      1.0000     2.0000\n" ++
        "B = [2x2]\n         NaN        NaN\n         NaN        NaN\n" ++
        "E = [0x0]\nn = 3\nx = NaN\n") := by
    decide +kernel
  cases ok : (run workspace ["B = [A; A]*x", "E = []"]).1 with
  | error cause =>
    rw [ok] at report
    cases report
  | ok V =>
    rw [ok] at report
    exact ⟨V, rfl, Option.some.inj report, run_results ok⟩

end Workspace

end MatrixCalc
