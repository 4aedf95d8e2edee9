import MatrixCalc.Proofs.Enumeration
import MatrixCalc.Proofs.Phases.Recipes

/-!
# Integers and sequences side by side

Neighbouring integers of a list become one part of a sequence, and every sequence is a part of its
own.  How the parts are cut cannot be seen from outside: the indices of the sequence are those of
the items, one item after another.

* `concatenation` : lists one after another, up to the first failure.
* `Variable.indices` : the indices that an item stands for.
* `Range.concatenation_parts` : the parts together have the indices of the items.
* `Range.join_concatenates` : **lists side by side concatenate in written order**.
-/

namespace MatrixCalc

/-! ### One after another -/

section Concatenation

variable {α β ε : Type} {f : α → Except ε (List β)}

/-- The lists that `f` gives for the items, one after another; the first failure ends it. -/
def concatenation (f : α → Except ε (List β)) (items : List α) : Except ε (List β) :=
  (items.mapM f).map List.flatten

theorem concatenation_cons (a : α) (items : List α) :
    concatenation f (a :: items) =
      (f a).bind fun first => (concatenation f items).map (first ++ ·) := by
  rw [concatenation, List.mapM_cons]
  cases f a with
  | error => rfl
  | ok first =>
    rw [concatenation]
    cases items.mapM f <;> rfl

/-- Lists one after another fail iff one of them does. -/
theorem concatenation_fails_iff {items : List α} :
    (∃ e, concatenation f items = .error e) ↔ ∃ a ∈ items, ∃ e, f a = .error e := by
  induction items with
  | nil =>
    constructor
    · rintro ⟨e, failed⟩
      cases failed
    · rintro ⟨a, mem, -⟩
      cases mem
  | cons a items ih =>
    rw [concatenation_cons]
    simp only [List.mem_cons, exists_eq_or_imp, ← ih]
    cases f a with
    | error e => simp [Except.bind]
    | ok first => cases concatenation f items <;> simp [Except.bind, Except.map]

end Concatenation

/-! ### Items -/

/-- The variable is an integer or a sequence. -/
def Variable.Listable (v : Variable) : Prop := v.kind = .integer ∨ v.kind = .sequence

instance (v : Variable) : Decidable v.Listable := by
  unfold Variable.Listable
  infer_instance

/-- The indices that an item of a list stands for.  An integer is read when the indices are asked
for; a sequence is the one that its cell holds when the list is joined, in the store `joined`.
Matrices and doubles have no indices. -/
def Variable.indices (joined : Store) (read : Cell .integer → Int64) (size : Nat) :
    Variable → Except NumericFailure (List Int64)
  | ⟨.integer, cell⟩ => .ok [read cell]
  | ⟨.sequence, cell⟩ => (joined.read cell).indices read size
  | _ => .ok []

namespace Range

variable {read : Cell .integer → Int64} {size : Nat} {s : Store} {items : List Variable}
  {run : List (Cell .integer)} {found : List IndexSequence}

/-! ### Parts -/

/-- The integers read so far are handed out in front of the other parts. -/
theorem concatenation_flush (run : List (Cell .integer)) (found : List IndexSequence) :
    concatenation (IndexSequence.indices read size) (flush run found) =
      (concatenation (IndexSequence.indices read size) found).map (run.map read ++ ·) := by
  cases run with
  | nil =>
    show concatenation _ found = Except.map (fun rest => [] ++ rest) _
    cases concatenation (IndexSequence.indices read size) found <;> rfl
  | cons cell run =>
    have listed : (IndexSequence.listed (cell :: run)).indices read size =
        .ok ((cell :: run).map read) := congrArg Except.ok (Runs.toList_listed _)
    rw [flush, List.isEmpty_cons, if_neg Bool.false_ne_true, concatenation_cons, listed]
    rfl

/-- **The parts together have the indices of the items**, behind the integers that have been read
before. -/
theorem concatenation_parts (cut : parts s run items = .ok found) :
    concatenation (IndexSequence.indices read size) found =
      (concatenation (Variable.indices s read size) items).map (run.map read ++ ·) := by
  -- on the items; the integers read so far vary
  fun_induction parts s run items generalizing found with
  | case1 run =>
    cases cut
    rw [concatenation_flush]
    rfl
  | case2 run cell rest ih =>
    rw [ih cut, concatenation_cons]
    show _ = Except.map _ (Except.map _ _)
    cases concatenation (Variable.indices s read size) rest <;> simp [Except.map]
  | case3 run cell rest ih =>
    obtain ⟨more, cut', eq⟩ := except_bind_eq_ok_iff.1 cut
    cases eq
    rw [concatenation_flush, concatenation_cons, concatenation_cons, ih cut', Variable.indices]
    cases concatenation (Variable.indices s read size) rest <;> rfl
  | case4 => cases cut

theorem anyNeedsSize_flush (run : List (Cell .integer)) (found : List IndexSequence) :
    IndexSequence.anyNeedsSize (flush run found) = IndexSequence.anyNeedsSize found := by
  cases run <;> rfl

/-- The parts need a size iff an item does. -/
theorem anyNeedsSize_parts (cut : parts s run items = .ok found) :
    IndexSequence.anyNeedsSize found = items.any (Group.needsSize s) := by
  fun_induction parts s run items generalizing found with
  | case1 run =>
    cases cut
    rw [anyNeedsSize_flush]
    rfl
  | case2 run cell rest ih =>
    rw [ih cut, List.any_cons]
    rfl
  | case3 run cell rest ih =>
    obtain ⟨more, cut', eq⟩ := except_bind_eq_ok_iff.1 cut
    cases eq
    rw [anyNeedsSize_flush, IndexSequence.anyNeedsSize, ih cut', List.any_cons, Group.needsSize]
  | case4 => cases cut

/-- Integers and sequences have parts, and nothing else has. -/
theorem exists_parts_iff : (∃ found, parts s run items = .ok found) ↔ ∀ v ∈ items, v.Listable := by
  fun_induction parts s run items with
  | case1 run => simp
  | case2 run cell rest ih => simp [ih, Variable.Listable]
  | case3 run cell rest ih =>
    rw [List.forall_mem_cons, ← ih]
    simp only [except_bind_eq_ok_iff]
    constructor
    · rintro ⟨_, more, cut, -⟩
      exact ⟨.inr rfl, more, cut⟩
    · rintro ⟨-, more, cut⟩
      exact ⟨_, more, cut, rfl⟩
  | case4 run v rest notInteger notSequence =>
    constructor
    · rintro ⟨found, cut⟩
      cases cut
    · intro all
      rcases v with ⟨kind, cell⟩
      rcases (List.forall_mem_cons.1 all).1 with rfl | rfl
      · exact absurd rfl (notInteger cell)
      · exact absurd rfl (notSequence cell)

/-! ### One sequence of several parts -/

theorem indices_ofParts (found : List IndexSequence) :
    (ofParts found).indices read size = concatenation (IndexSequence.indices read size) found := by
  unfold ofParts
  split
  · rename_i part
    rw [concatenation_cons]
    cases part.indices read size <;>
      simp [Except.bind, Except.map, concatenation, pure, Except.pure]
  · exact IndexSequence.indices_joined read size found

theorem needsSize_ofParts (found : List IndexSequence) :
    (ofParts found).needsSize = IndexSequence.anyNeedsSize found := by
  unfold ofParts
  split
  · simp [IndexSequence.anyNeedsSize]
  · rfl

/-- Several items are joined iff they have parts; the answer is a new cell that holds the parts. -/
theorem join_eq_ok_iff (several : 2 ≤ items.length) {d d' : Draft} {answer : Option Variable} :
    join items d = .ok answer d' ↔ ∃ found, parts d.store [] items = .ok found ∧
      answer = some ⟨.sequence, (@Store.allocate d.store .sequence (ofParts found)).2⟩ ∧
      d' = { d with
        store := (@Store.allocate d.store .sequence (ofParts found)).1
        temporaries := d.temporaries + 1 } := by
  have step : join items = (do
      let found ← Build.ofExcept (parts (← get).store [] items)
      return some (← Build.sequenceVariable (ofParts found))) := by
    unfold join
    split
    · simp at several
    · simp at several
    · rfl
  rw [step]
  simp only [bind_eq_ok_iff, Build.get_eq_ok_iff, Build.ofExcept_eq_ok_iff, pure_eq_ok_iff,
    Build.sequenceVariable_eq]
  constructor
  · rintro ⟨_, _, ⟨rfl, rfl⟩, found, _, ⟨cut, rfl⟩, _, _, made, rfl, rfl⟩
    cases made
    exact ⟨found, cut, rfl, rfl⟩
  · rintro ⟨found, cut, rfl, rfl⟩
    exact ⟨_, _, ⟨rfl, rfl⟩, found, _, ⟨cut, rfl⟩, _, _, rfl, rfl, rfl⟩

/-- **Lists side by side concatenate in written order.**  Two or more items are joined iff each of
them is an integer or a sequence.  The answer is a new cell with a sequence.  It needs a size iff
an item does.  Whatever the integer cells hold later, its indices are those of the items, one item
after another: of an integer what it holds then, of a sequence its own.  They are missing iff those
of an item are. -/
theorem join_concatenates (d : Draft) (items : List Variable) (several : 2 ≤ items.length) :
    ((∃ answer d', join items d = .ok answer d') ↔ ∀ v ∈ items, v.Listable) ∧
    ∀ answer d', join items d = .ok answer d' → ∃ (q : IndexSequence) (cell : Cell .sequence),
      answer = some ⟨.sequence, cell⟩ ∧ (d'.store, cell) = d.store.allocate q ∧
      d'.store.read cell = q ∧
      q.needsSize = items.any (Group.needsSize d.store) ∧
      ∀ (later : Store) (size : Nat),
        (later.runs q size).map Runs.toList =
          (items.mapM (Variable.indices d.store later.read size)).map List.flatten ∧
        ((∃ e, later.runs q size = .error e) ↔
          ∃ v ∈ items, ∃ e, v.indices d.store later.read size = .error e) := by
  simp only [join_eq_ok_iff several]
  constructor
  · rw [← @exists_parts_iff d.store items []]
    constructor
    · rintro ⟨_, _, found, cut, -⟩
      exact ⟨found, cut⟩
    · rintro ⟨found, cut⟩
      exact ⟨_, _, found, cut, rfl, rfl⟩
  · rintro _ _ ⟨found, cut, rfl, rfl⟩
    refine ⟨ofParts found, _, rfl, rfl, d.store.read_allocate_self _, ?_, fun later size => ?_⟩
    · rw [needsSize_ofParts, anyNeedsSize_parts cut]
    have indices : (ofParts found).indices later.read size =
        concatenation (Variable.indices d.store later.read size) items := by
      rw [indices_ofParts, concatenation_parts cut]
      cases concatenation (Variable.indices d.store later.read size) items <;> rfl
    refine ⟨indices, ?_⟩
    rw [← concatenation_fails_iff, ← indices, IndexSequence.indices, Store.runs]
    cases (ofParts found).runs later.read size <;> simp [Except.map]

/-- The integer `5`, the sequence `1:` and the integer `7` side by side.  When the integers have
become `6`, `2` and `8`, the indices for the size 4 are `6`, `2`, `3` and `8`. -/
theorem join_concatenates_mixed :
    let d : Draft := { store := { integers := #[5, 1, 7], sequences := #[.span (some ⟨1⟩) none] } }
    let items : List Variable := [⟨.integer, ⟨0⟩⟩, ⟨.sequence, ⟨0⟩⟩, ⟨.integer, ⟨2⟩⟩]
    let later : Store := { d.store with integers := #[6, 2, 8] }
    2 ≤ items.length ∧ ∃ (d' : Draft) (q : IndexSequence) (cell : Cell .sequence),
      join items d = .ok (some ⟨.sequence, cell⟩) d' ∧ d'.store.read cell = q ∧
      q.needsSize = true ∧ (later.runs q 4).map Runs.toList = .ok [6, 2, 3, 8] := by
  intro d items later
  have several : 2 ≤ items.length := by decide
  have law := join_concatenates d items several
  obtain ⟨answer, d', joined⟩ := law.1.2 (by decide)
  obtain ⟨q, cell, rfl, -, held, needs, indices⟩ := law.2 answer d' joined
  refine ⟨several, d', q, cell, joined, held, ?_, ?_⟩
  · rw [needs]
    rfl
  · have one : (1 : Int64) ≠ 0 := by decide
    have counted : Runs.toList [.stepped (some 2) 1 3 one] = [2, 3] := by
      refine List.map_injective_iff.2 (fun _ _ => Int64.toInt_inj.1) ?_
      rw [Runs.toList_stepped]
      decide +kernel
    have span : Variable.indices d.store later.read 4 ⟨.sequence, ⟨0⟩⟩ = .ok [2, 3] := by
      have last : IndexSequence.lastIndex 4 = 3 := by decide +kernel
      show (IndexSequence.span (some ⟨1⟩) none).indices later.read 4 = _
      rw [IndexSequence.indices, IndexSequence.runs, Option.map_none, Option.getD_none, last]
      exact congrArg Except.ok counted
    rw [(indices later 4).1]
    simp only [items, List.mapM_cons, span]
    rfl

end Range

end MatrixCalc
