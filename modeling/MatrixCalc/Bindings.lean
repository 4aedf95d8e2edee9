/-!
# Bindings

A table from names to values, kept in ascending order of the names.

* `Bindings.find?_insert`, `Bindings.find?_erase` : what a change does to every name.
* `Bindings.Sorted.insert`, `Bindings.Sorted.erase` : the order is kept, so each name is bound at
  most once.
-/

namespace MatrixCalc

/-- A table from names to values. -/
structure Bindings (α : Type) where
  /-- The names with their values, in ascending order of the names. -/
  entries : List (String × α) := []

namespace Bindings

variable {α : Type}

/-- The value of a name in a list of entries. -/
def findIn (name : String) : List (String × α) → Option α
  | [] => none
  | (other, value) :: rest => if name = other then some value else findIn name rest

/-- The value of a name. -/
def find? (table : Bindings α) (name : String) : Option α := findIn name table.entries

/-- Entries with a name bound to a value; an earlier value is replaced. -/
def insertIn (name : String) (value : α) : List (String × α) → List (String × α)
  | [] => [(name, value)]
  | (other, old) :: rest =>
    if name = other then (name, value) :: rest
    else if name < other then (name, value) :: (other, old) :: rest
    else (other, old) :: insertIn name value rest

/-- The table with a name bound to a value. -/
def insert (table : Bindings α) (name : String) (value : α) : Bindings α :=
  ⟨insertIn name value table.entries⟩

/-- The table without a name. -/
def erase (table : Bindings α) (name : String) : Bindings α :=
  ⟨table.entries.filter fun entry => entry.1 != name⟩

/-- The bound names, in ascending order. -/
def names (table : Bindings α) : List String := table.entries.map Prod.fst

/-- No name is bound. -/
def isEmpty (table : Bindings α) : Bool := table.entries.isEmpty

/-- The names ascend. -/
def Sorted (table : Bindings α) : Prop := table.names.Pairwise (· < ·)

/-! ### Look-up -/

theorem findIn_insertIn (name : String) (value : α) (entries : List (String × α))
    (other : String) : findIn other (insertIn name value entries) =
      if other = name then some value else findIn other entries := by
  induction entries with
  | nil => simp [insertIn, findIn]
  | cons entry entries ih =>
    obtain ⟨key, old⟩ := entry
    simp only [insertIn]
    by_cases same : name = key
    · subst same
      simp only [if_true, findIn]
      split <;> simp
    · simp only [same, if_false]
      split
      · simp [findIn]
      · simp only [findIn, ih]
        by_cases hit : other = key
        · have : other ≠ name := fun h => same (h.symm.trans hit)
          simp [hit, Ne.symm same]
        · simp [hit]

theorem find?_insert (table : Bindings α) (name : String) (value : α) (other : String) :
    (table.insert name value).find? other =
      if other = name then some value else table.find? other :=
  findIn_insertIn name value table.entries other

theorem find?_erase (table : Bindings α) (name other : String) :
    (table.erase name).find? other = if other = name then none else table.find? other := by
  obtain ⟨entries⟩ := table
  simp only [find?, erase]
  induction entries with
  | nil => simp [findIn]
  | cons entry entries ih =>
    obtain ⟨key, value⟩ := entry
    by_cases gone : key = name
    · subst gone
      simp only [List.filter_cons, bne_self_eq_false, Bool.false_eq_true, if_false, ih, findIn]
      split <;> simp_all
    · have kept : (key != name) = true := by simpa using gone
      simp only [List.filter_cons, kept, if_true, findIn, ih]
      by_cases hit : other = key
      · simp [hit, gone]
      · simp [hit]

theorem eq_of_isEmpty {a b : Bindings α} (ha : a.isEmpty = true) (hb : b.isEmpty = true) :
    a = b := by
  obtain ⟨xs⟩ := a
  obtain ⟨ys⟩ := b
  rw [List.isEmpty_iff.1 (show xs.isEmpty = true from ha),
    List.isEmpty_iff.1 (show ys.isEmpty = true from hb)]

/-! ### Order -/

theorem mem_names_insertIn {name : String} {value : α} {entries : List (String × α)}
    {other : String} (h : other ∈ (insertIn name value entries).map Prod.fst) :
    other = name ∨ other ∈ entries.map Prod.fst := by
  induction entries with
  | nil => simpa [insertIn] using h
  | cons entry entries ih =>
    obtain ⟨key, old⟩ := entry
    simp only [insertIn] at h
    split at h
    · rename_i same
      simp only [List.map_cons, List.mem_cons] at h ⊢
      rcases h with h | h
      · exact .inl h
      · exact .inr (.inr h)
    · split at h
      · simpa using h
      · simp only [List.map_cons, List.mem_cons] at h ⊢
        rcases h with h | h
        · exact .inr (.inl h)
        · rcases ih h with h | h
          · exact .inl h
          · exact .inr (.inr h)

theorem Sorted.insert {table : Bindings α} (h : table.Sorted) (name : String) (value : α) :
    (table.insert name value).Sorted := by
  obtain ⟨entries⟩ := table
  simp only [Sorted, names, Bindings.insert] at h ⊢
  induction entries with
  | nil => simp [insertIn]
  | cons entry entries ih =>
    obtain ⟨key, old⟩ := entry
    simp only [List.map_cons, List.pairwise_cons] at h
    simp only [insertIn]
    split
    · rename_i same
      simpa [same] using h
    · split
      · rename_i less
        simp only [List.map_cons, List.pairwise_cons, List.mem_cons, forall_eq_or_imp]
        exact ⟨⟨less, fun other mem => String.lt_trans less (h.1 other mem)⟩, h.1, h.2⟩
      · rename_i different notLess
        simp only [List.map_cons, List.pairwise_cons]
        refine ⟨fun other mem => ?_, ih h.2⟩
        rcases mem_names_insertIn mem with rfl | mem
        · rcases String.le_total key other with le | le
          · exact Decidable.byContradiction fun not =>
              different (String.le_antisymm (String.not_lt.1 not) le)
          · exact absurd (Decidable.byContradiction fun not =>
              different (String.le_antisymm le (String.not_lt.1 not))) notLess
        · exact h.1 other mem

theorem Sorted.erase {table : Bindings α} (h : table.Sorted) (name : String) :
    (table.erase name).Sorted := by
  have sub : List.Sublist ((table.entries.filter fun entry => entry.1 != name).map Prod.fst)
      (table.entries.map Prod.fst) := List.filter_sublist.map Prod.fst
  exact List.Pairwise.sublist sub h

end Bindings

end MatrixCalc
