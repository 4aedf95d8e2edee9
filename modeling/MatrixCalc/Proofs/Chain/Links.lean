import Mathlib
import MatrixCalc.Token.Chain

/-!
# Links of a pool

The nodes of a chain are a list of numbers, each linked to its neighbours.  The nodes of a pool are
divided: every node belongs to one chain, once, or is free.  Editing a chain changes links at the
ends of the runs that it cuts and joins; what other chains own stays as it is.

* `Pool.Links` : nodes that are linked in a row; `Pool.links_append` : two rows that are joined.
* `Pool.Owns` : a list of nodes that, with the free ones, is all nodes, each once.
* `Pool.Relinks` : links have changed at some nodes, and nothing else has.
* `Chain.Runs` : a chain runs through the nodes of a list.
-/

namespace MatrixCalc

namespace Pool

variable {pool pool' pool'' : Pool} {id : Nat} {ids xs ys used : List Nat}
  {front back : Option Nat}

/-! ### Nodes -/

theorem node_put (pool : Pool) (id : Nat) (node : Node) (other : Nat) :
    (pool.put id node).node other =
      if other = id ∧ id < pool.nodes.size then node else pool.node other := by
  show (pool.nodes.setIfInBounds id node).getD other vacant = _
  by_cases same : other = id
  · subst same
    by_cases bound : other < pool.nodes.size
    · simp [bound]
    · simp [Pool.node, bound]
  · rw [if_neg fun both => same both.1]
    simp [Pool.node, Array.getElem?_setIfInBounds_ne (Ne.symm same)]

theorem node_put_self (bound : id < pool.nodes.size) (node : Node) :
    (pool.put id node).node id = node := by
  rw [node_put, if_pos ⟨rfl, bound⟩]

theorem node_put_of_ne {other : Nat} (h : other ≠ id) (node : Node) :
    (pool.put id node).node other = pool.node other := by
  rw [node_put, if_neg fun both => h both.1]

@[simp] theorem size_put (pool : Pool) (id : Nat) (node : Node) :
    (pool.put id node).nodes.size = pool.nodes.size := Array.size_setIfInBounds

theorem map_token_congr (same : ∀ id ∈ ids, pool'.node id = pool.node id) :
    ids.map pool'.token = ids.map pool.token :=
  List.map_congr_left fun id mem => congrArg Node.token (same id mem)

/-! ### Rows of linked nodes -/

/-- The nodes are linked to each other in this order.  The first is linked to `front` in front of
it, the last to `back` behind it. -/
def Links (pool : Pool) : Option Nat → List Nat → Option Nat → Prop
  | _, [], _ => True
  | front, id :: ids, back =>
    pool.before id = front ∧ pool.after id = ids.head?.or back ∧ Links pool (some id) ids back

/-- Two rows make one row if each is linked to the end of the other. -/
theorem links_append : pool.Links front (xs ++ ys) back ↔
    pool.Links front xs (ys.head?.or back) ∧ pool.Links (xs.getLast?.or front) ys back := by
  induction xs generalizing front with
  | nil => simp [Links]
  | cons x xs ih =>
    have last : (x :: xs).getLast?.or front = xs.getLast?.or (some x) := by
      rw [List.getLast?_cons]
      cases xs.getLast? <;> rfl
    simp only [List.cons_append, Links, ih, last, List.head?_append, Option.or_assoc, and_assoc]

/-- Only the links of its nodes matter for a row. -/
theorem Links.of_links (h : pool.Links front ids back)
    (same : ∀ id ∈ ids, pool'.before id = pool.before id ∧ pool'.after id = pool.after id) :
    pool'.Links front ids back := by
  induction ids generalizing front with
  | nil => trivial
  | cons id ids ih =>
    obtain ⟨before, after, rest⟩ := h
    obtain ⟨before', after'⟩ := same id List.mem_cons_self
    exact ⟨before'.trans before, after'.trans after,
      ih rest fun other mem => same other (List.mem_cons_of_mem _ mem)⟩

theorem Links.congr (h : pool.Links front ids back)
    (same : ∀ id ∈ ids, pool'.node id = pool.node id) : pool'.Links front ids back :=
  h.of_links fun id mem =>
    ⟨congrArg Node.before (same id mem), congrArg Node.after (same id mem)⟩

/-- The neighbours of a node in a row with free ends. -/
theorem Links.around (h : pool.Links none (xs ++ id :: ys) none) :
    pool.before id = xs.getLast? ∧ pool.after id = ys.head? := by
  obtain ⟨-, before, after, -⟩ := links_append.1 h
  rw [Option.or_none] at before after
  exact ⟨before, after⟩

/-- In a row with free ends, the links to the front and to the back are inverse to each other. -/
theorem Links.after_eq_some_iff (h : pool.Links none ids none) (mem : id ∈ ids) {next : Nat} :
    pool.after id = some next ↔ next ∈ ids ∧ pool.before next = some id := by
  constructor
  · intro after
    obtain ⟨xs, ys, rfl⟩ := List.append_of_mem mem
    rw [h.around.2] at after
    obtain ⟨ys, rfl⟩ := List.head?_eq_some_iff.1 after
    rw [List.append_cons] at h
    exact ⟨by simp, h.around.1.trans List.getLast?_concat⟩
  · rintro ⟨mem', before⟩
    obtain ⟨xs, ys, rfl⟩ := List.append_of_mem mem'
    rw [h.around.1] at before
    obtain ⟨xs, rfl⟩ := List.getLast?_eq_some_iff.1 before
    rw [← List.append_cons] at h
    exact h.around.2

/-- Walking along a row passes its nodes, and ends behind the last one. -/
theorem Links.walk (h : pool.Links front ids none) {steps : Nat} (enough : ids.length ≤ steps) :
    pool.walk steps ids.head? = ids := by
  induction ids generalizing front steps with
  | nil => cases steps <;> rfl
  | cons id ids ih =>
    obtain ⟨steps, rfl⟩ := Nat.exists_eq_add_of_le' (Nat.lt_of_lt_of_le (Nat.succ_pos _) enough)
    obtain ⟨-, after, rest⟩ := h
    rw [Option.or_none] at after
    show id :: pool.walk steps (pool.after id) = id :: ids
    rw [after, ih rest (Nat.le_of_succ_le_succ enough)]

/-! ### Owners -/

/-- The nodes of the list and the free ones are all nodes, each once. -/
def Owns (pool : Pool) (used : List Nat) : Prop :=
  (used ++ pool.free).Perm (List.range pool.nodes.size)

namespace Owns

theorem perm (h : pool.Owns used) (same : xs.Perm used) : pool.Owns xs :=
  (same.append_right _).trans h

theorem nodup (h : pool.Owns used) : used.Nodup :=
  (h.nodup_iff.2 List.nodup_range).of_append_left

theorem lt (h : pool.Owns used) (mem : id ∈ used) : id < pool.nodes.size :=
  List.mem_range.1 (h.mem_iff.1 (List.mem_append_left _ mem))

/-- Nothing is owned in an empty pool. -/
theorem empty : ({} : Pool).Owns [] := .refl _

end Owns

/-- Allocating gives a node that nobody owned, without links. -/
theorem owns_allocate (h : pool.Owns used) (token : Token) :
    (pool.allocate token).1.Owns ((pool.allocate token).2 :: used) ∧
      (pool.allocate token).1.node (pool.allocate token).2 = ⟨token, none, none⟩ ∧
      ∀ id ∈ used, (pool.allocate token).1.node id = pool.node id := by
  have nodup := h.nodup_iff.2 List.nodup_range
  unfold allocate
  split
  · rename_i id free eq
    have bound : id < pool.nodes.size :=
      List.mem_range.1 (h.mem_iff.1 (by rw [eq]; simp))
    refine ⟨?_, node_put_self bound _, fun other mem => node_put_of_ne ?_ _⟩
    · have all := h
      unfold Owns at all ⊢
      rw [eq] at all
      rw [size_put]
      exact List.perm_middle.symm.trans all
    · rintro rfl
      rw [eq] at nodup
      exact (List.nodup_append'.1 nodup).2.2 mem List.mem_cons_self
  · rename_i eq
    have all := h
    unfold Owns at all ⊢
    rw [eq, List.append_nil] at all
    refine ⟨?_, by simp [node], fun other mem => ?_⟩
    · rw [eq, List.append_nil]
      show (pool.nodes.size :: used).Perm (List.range (pool.nodes.push _).size)
      rw [Array.size_push, List.range_succ]
      exact (all.cons _).trans (List.perm_append_singleton _ _).symm
    · have bound := h.lt mem
      simp [node, Array.getElem?_push_lt bound, bound]

/-- A node that is given up is free. -/
theorem owns_release (h : pool.Owns (id :: used)) : (pool.release id).Owns used ∧
    ∀ other ∈ used, (pool.release id).node other = pool.node other := by
  refine ⟨?_, fun other mem => node_put_of_ne ?_ _⟩
  · show (used ++ id :: pool.free).Perm (List.range (pool.put id vacant).nodes.size)
    rw [size_put]
    exact List.perm_middle.trans h
  · rintro rfl
    exact (List.nodup_cons.1 h.nodup).1 mem

/-- Nodes that are given up one after the other are free. -/
theorem owns_foldl_release (h : pool.Owns (xs ++ used)) : (xs.foldl release pool).Owns used ∧
    ∀ id ∈ used, (xs.foldl release pool).node id = pool.node id := by
  induction xs generalizing pool with
  | nil => exact ⟨h, fun _ _ => rfl⟩
  | cons x xs ih =>
    obtain ⟨owns, same⟩ := owns_release h
    obtain ⟨owns', same'⟩ := ih owns
    exact ⟨owns', fun id mem => (same' id mem).trans (same id (List.mem_append_right _ mem))⟩

/-! ### Changing links -/

/-- At some of the given nodes the links have changed, and nothing else has. -/
structure Relinks (pool : Pool) (ids : List Nat) (pool' : Pool) : Prop where
  /-- The free nodes are the same. -/
  free : pool'.free = pool.free
  /-- There are as many nodes. -/
  size : pool'.nodes.size = pool.nodes.size
  /-- All nodes hold the same tokens. -/
  token : ∀ id, pool'.token id = pool.token id
  /-- The other nodes have the same links. -/
  node : ∀ id ∉ ids, pool'.node id = pool.node id

namespace Relinks

theorem refl (pool : Pool) (ids : List Nat) : pool.Relinks ids pool :=
  ⟨rfl, rfl, fun _ => rfl, fun _ _ => rfl⟩

theorem trans (h : pool.Relinks ids pool') (h' : pool'.Relinks ids pool'') :
    pool.Relinks ids pool'' where
  free := h'.free.trans h.free
  size := h'.size.trans h.size
  token id := (h'.token id).trans (h.token id)
  node id mem := (h'.node id mem).trans (h.node id mem)

theorem mono (h : pool.Relinks xs pool') (sub : ∀ id ∈ xs, id ∈ ids) : pool.Relinks ids pool' :=
  ⟨h.free, h.size, h.token, fun id mem => h.node id fun mem' => mem (sub id mem')⟩

theorem owns (h : pool.Relinks ids pool') (owns : pool.Owns used) : pool'.Owns used := by
  unfold Owns
  rw [h.free, h.size]
  exact owns

theorem map_token (h : pool.Relinks ids pool') (xs : List Nat) :
    xs.map pool'.token = xs.map pool.token := List.map_congr_left fun id _ => h.token id

/-- A row away from the changed nodes is linked as before. -/
theorem links (h : pool.Relinks ids pool') (row : pool.Links front xs back)
    (apart : ids.Disjoint xs) : pool'.Links front xs back :=
  row.congr fun id mem => h.node id fun mem' => apart mem' mem

/-- Overwriting a node with what it holds changes only links. -/
theorem put (pool : Pool) (id : Nat) (before after : Option Nat) :
    pool.Relinks [id] (pool.put id ⟨pool.token id, before, after⟩) where
  free := rfl
  size := size_put pool id _
  token other := by
    show ((pool.put id _).node other).token = _
    rw [node_put]
    split
    · rename_i same
      rw [same.1]
    · rfl
  node other apart := node_put_of_ne (fun same => apart (List.mem_singleton.2 same)) _

end Relinks

end Pool

/-! ### Chains -/

namespace Chain

open Pool

variable {pool pool' : Pool} {chain : Chain} {ids xs ys zs : List Nat} {front back : Option Nat}

theorem relinks_linkAfter (pool : Pool) (chain : Chain) (position id : Option Nat) :
    pool.Relinks position.toList (linkAfter pool chain position id).1 := by
  cases position with
  | none => exact .refl pool []
  | some position => exact .put pool position _ _

theorem relinks_linkBefore (pool : Pool) (chain : Chain) (position id : Option Nat) :
    pool.Relinks position.toList (linkBefore pool chain position id).1 := by
  cases position with
  | none => exact .refl pool []
  | some position => exact .put pool position _ _

/-- Linking a node behind the last one of a row. -/
theorem links_linkAfter (row : pool.Links front xs back) (nodup : xs.Nodup)
    (bound : ∀ id ∈ xs, id < pool.nodes.size) (chain : Chain) (next : Option Nat) :
    (linkAfter pool chain xs.getLast? next).1.Links front xs next := by
  rcases List.eq_nil_or_concat xs with rfl | ⟨init, last, rfl⟩
  · trivial
  · rw [List.concat_eq_append] at *
    obtain ⟨before, single⟩ := links_append.1 row
    have apart : last ∉ init := fun mem => List.disjoint_of_nodup_append nodup mem (by simp)
    have inside := bound last (by simp)
    have node : (pool.put last { pool.node last with after := next }).node last =
        { pool.node last with after := next } := node_put_self inside _
    rw [List.getLast?_concat]
    show (pool.put last { pool.node last with after := next }).Links front (init ++ [last]) next
    refine links_append.2 ⟨before.congr fun id mem => node_put_of_ne ?_ _, ?_, ?_, trivial⟩
    · rintro rfl
      exact apart mem
    · show ((pool.put last _).node last).before = _
      rw [node]
      exact single.1
    · show ((pool.put last _).node last).after = _
      rw [node]
      rfl

/-- Linking a node in front of the first one of a row. -/
theorem links_linkBefore (row : pool.Links front xs back) (nodup : xs.Nodup)
    (bound : ∀ id ∈ xs, id < pool.nodes.size) (chain : Chain) (previous : Option Nat) :
    (linkBefore pool chain xs.head? previous).1.Links previous xs back := by
  cases xs with
  | nil => trivial
  | cons first rest =>
    obtain ⟨-, after, row⟩ := row
    have apart := (List.nodup_cons.1 nodup).1
    have node : (pool.put first { pool.node first with before := previous }).node first =
        { pool.node first with before := previous } := node_put_self (bound first (by simp)) _
    show (pool.put first { pool.node first with before := previous }).Links previous
      (first :: rest) back
    refine ⟨?_, ?_, row.congr fun id mem => node_put_of_ne ?_ _⟩
    · show ((pool.put first _).node first).before = _
      rw [node]
    · show ((pool.put first _).node first).after = _
      rw [node]
      exact after
    · rintro rfl
      exact apart mem

/-- **The chain runs through the nodes**, front to back: it knows its ends and its length, and its
ends are linked to nothing outside. -/
structure Runs (pool : Pool) (chain : Chain) (ids : List Nat) : Prop where
  /-- The front of the chain is the first node. -/
  first : chain.first = ids.head?
  /-- The back of the chain is the last node. -/
  last : chain.last = ids.getLast?
  /-- The length of the chain is the number of nodes. -/
  size : chain.size = ids.length
  /-- The nodes are linked, and the ends are free. -/
  links : pool.Links none ids none

namespace Runs

theorem empty (pool : Pool) : Runs pool {} [] := ⟨rfl, rfl, rfl, trivial⟩

theorem congr (h : Runs pool chain ids) (same : ∀ id ∈ ids, pool'.node id = pool.node id) :
    Runs pool' chain ids :=
  ⟨h.first, h.last, h.size, h.links.congr same⟩

/-- A chain runs through the nodes that a walk from its front passes. -/
theorem ids_eq (h : Runs pool chain ids) : chain.ids pool = ids := by
  unfold Chain.ids
  rw [h.first, h.size]
  exact h.links.walk (Nat.le_refl _)

theorem tokens_eq (h : Runs pool chain ids) : chain.tokens pool = ids.map pool.token := by
  unfold tokens
  rw [h.ids_eq]

end Runs

end Chain

end MatrixCalc
