import MatrixCalc.Proofs.Conservation
import MatrixCalc.Proofs.Renaming

/-!
# Terms of pairs

Two terms that differ in the names of their cells only are one term whose cells are pairs: its first
names give the one, its second names the other.  If the two cells of each pair mean the same, each
in a store of its own, then both terms have the same value.

* `Renaming.first`, `Renaming.second` : the two names of a pair.
* `Store.exists_common` : a store in which pairs mean what both of their cells mean.
* `Term.meaning_eval_pair` : **terms of equal operands have equal values.**
-/

namespace MatrixCalc

/-! ### Pairs of cells -/

/-- The first cell of a pair. -/
def Renaming.first : Renaming := fun _ c => ⟨c.id.unpair.1⟩

/-- The second cell of a pair. -/
def Renaming.second : Renaming := fun _ c => ⟨c.id.unpair.2⟩

/-- Two cells as one. -/
def Cell.pair {kind : Kind} (a b : Cell kind) : Cell kind := ⟨Nat.pair a.id b.id⟩

@[simp] theorem Renaming.first_pair {kind : Kind} (a b : Cell kind) :
    Renaming.first kind (a.pair b) = a := by
  simp [Renaming.first, Cell.pair]

@[simp] theorem Renaming.second_pair {kind : Kind} (a b : Cell kind) :
    Renaming.second kind (a.pair b) = b := by
  simp [Renaming.second, Cell.pair]

/-- The two cells of a pair mean the same, the first in `s` and the second in `s'`. -/
def Store.Agrees (s s' : Store) (v : Variable) : Prop :=
  s'.meaning (Renaming.second v.kind v.cell) = s.meaning (Renaming.first v.kind v.cell)

/-! ### A store of pairs -/

/-- The store whose first `size` cells of each kind hold the given contents. -/
def Store.ofFn (size : Nat) (content : (kind : Kind) → Nat → kind.Content) : Store where
  matrices := Array.ofFn fun i : Fin size => content .matrix i
  doubles := Array.ofFn fun i : Fin size => content .double i
  integers := Array.ofFn fun i : Fin size => content .integer i
  sequences := Array.ofFn fun i : Fin size => content .sequence i

theorem Store.read_ofFn {size : Nat} {content : (kind : Kind) → Nat → kind.Content} {kind : Kind}
    {c : Cell kind} (h : c.id < size) : (Store.ofFn size content).read c = content kind c.id := by
  cases kind <;> simp [Store.read, Store.contents, Store.ofFn, h]

theorem exists_bound (xs : List Nat) : ∃ bound, ∀ x ∈ xs, x < bound := by
  induction xs with
  | nil => exact ⟨0, nofun⟩
  | cons x xs ih =>
    obtain ⟨bound, h⟩ := ih
    refine ⟨max bound (x + 1), fun y mem => ?_⟩
    rcases List.mem_cons.1 mem with rfl | mem
    · omega
    · have := h y mem
      omega

namespace Store

variable {s s' : Store}

/-- **Pairs that agree have a store of their own**, in which each means what its two cells mean. -/
theorem exists_common {vs : List Variable} (agree : ∀ v ∈ vs, s.Agrees s' v) :
    ∃ common : Store, common.Matches .first s vs ∧ common.Matches .second s' vs := by
  -- a sequence is named in the common store by pairs of equal cells
  let diagonal : Renaming := fun _ c => c.pair c
  let content : (kind : Kind) → Nat → kind.Content := fun kind i =>
    kind.renameContent diagonal (s.read (Renaming.first kind ⟨i⟩))
  let reached : Variable → List Nat := fun v =>
    v.cell.id :: (v.kind.cellsOf (s.read (Renaming.first v.kind v.cell))).map fun c => (c.pair c).id
  obtain ⟨size, large⟩ := exists_bound (vs.flatMap reached)
  have read : ∀ {kind : Kind} {c : Cell kind}, c.id < size →
      (ofFn size content).read c = content kind c.id := fun small => read_ofFn small
  have first : (ofFn size content).Matches .first s vs := by
    rintro ⟨kind, c⟩ mem
    have bound : ∀ i ∈ reached ⟨kind, c⟩, i < size := fun i inside =>
      large i (List.mem_flatMap.2 ⟨_, mem, inside⟩)
    have here := @read kind c (bound c.id List.mem_cons_self)
    by_cases sequence : kind = .sequence
    · subst sequence
      funext i
      show _ = ((ofFn size content).read c).indices (ofFn size content).read i
      rw [here]
      refine (IndexSequence.indices_rename i (s.read (Renaming.first .sequence c))
        fun x mem => ?_).symm
      have small := bound (x.pair x).id (List.mem_cons_of_mem _ (List.mem_map_of_mem mem))
      rw [show diagonal .integer x = x.pair x from rfl, read small]
      show s.read (Renaming.first .integer (x.pair x)) = s.read x
      rw [Renaming.first_pair]
    · rw [meaning_eq_iff sequence, here]
      exact (Kind.renameContent_of_ne sequence _).symm
  refine ⟨ofFn size content, first, fun v mem => ?_⟩
  exact (agree v mem).trans (first v mem)

end Store

/-- **Terms of equal operands have equal values.** -/
theorem Term.meaning_eval_pair {s s' : Store} {kind : Kind} (t : Term kind)
    (agree : ∀ v ∈ t.operands, s.Agrees s' v) :
    ((t.rename .second).eval s').map (kind.meaning s'.read) =
      ((t.rename .first).eval s).map (kind.meaning s.read) := by
  obtain ⟨common, first, second⟩ := Store.exists_common agree
  rw [t.meaning_eval_rename first, t.meaning_eval_rename second]

end MatrixCalc
