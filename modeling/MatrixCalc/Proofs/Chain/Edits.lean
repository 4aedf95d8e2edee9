import MatrixCalc.Proofs.Chain.Links
import MatrixCalc.Proofs.Pieces

/-!
# Edits of a chain

What each operation on chains does to the nodes that a chain runs through.  The nodes are a list,
cut where the operation cuts the chain; `used` are the nodes of all other chains, which keep their
tokens and links.

* `Chain.runs_push`, `Chain.runs_insertAfter`, `Chain.runs_remove`, `Chain.runs_replace`,
  `Chain.runs_clear` : the edits of one chain.
* `Chain.runs_extract`, `Chain.runs_spliceAfter`, `Chain.Edited.spliced` : nodes that pass from one
  chain to another.
* `Chain.runs_splitFrom` : splitting gives chains through the pieces of the list.
-/

namespace MatrixCalc

namespace Chain

open Pool

variable {pool : Pool} {chain other : Chain} {ids xs ys zs used : List Nat} {id first last : Nat}
  {front back : Option Nat}

/-! ### Ends of rows -/

theorem relinks_linkAfter_getLast (pool : Pool) (chain : Chain) (xs : List Nat) (id : Option Nat) :
    pool.Relinks xs (linkAfter pool chain xs.getLast? id).1 :=
  (relinks_linkAfter pool chain _ id).mono fun _ mem =>
    List.mem_of_getLast? (Option.mem_toList.1 mem)

theorem relinks_linkBefore_head (pool : Pool) (chain : Chain) (xs : List Nat) (id : Option Nat) :
    pool.Relinks xs (linkBefore pool chain xs.head? id).1 :=
  (relinks_linkBefore pool chain _ id).mono fun _ mem =>
    List.mem_of_head? (Option.mem_toList.1 mem)

/-- Linking behind a row leaves it the front of the chain. -/
theorem linkAfter_snd (rest : List Nat) (h : chain.first = (xs ++ rest).head?) (pool : Pool)
    (next : Option Nat) :
    (linkAfter pool chain xs.getLast? next).2 = { chain with first := xs.head?.or next } := by
  rcases List.eq_nil_or_concat xs with rfl | ⟨init, last, rfl⟩
  · rfl
  · rw [List.concat_eq_append, List.getLast?_concat]
    have front : chain.first = (init ++ [last]).head?.or next := by
      cases init <;> exact h
    show chain = _
    rw [← front]

/-- Linking in front of a row leaves it the back of the chain. -/
theorem linkBefore_snd (rest : List Nat) (h : chain.last = (rest ++ zs).getLast?) (pool : Pool)
    (previous : Option Nat) : (linkBefore pool chain zs.head? previous).2 =
      { chain with last := zs.getLast?.or previous } := by
  cases zs with
  | nil => rfl
  | cons z zs =>
    have back : chain.last = (z :: zs).getLast?.or previous := by
      rw [h, List.getLast?_append, List.getLast?_cons]
      rfl
    show chain = _
    rw [← back]

/-! ### Cutting and joining -/

/-- Links the nodes on both sides of a gap to each other. -/
def bridge (pool : Pool) (chain : Chain) (front back : Option Nat) : Pool × Chain :=
  linkBefore (linkAfter pool chain front back).1 (linkAfter pool chain front back).2 back front

/-- Bridging the gap between two rows makes them one. -/
theorem runs_bridge (runs : Runs pool chain (xs ++ ys ++ zs)) (nodup : (xs ++ ys ++ zs).Nodup)
    (bound : ∀ id ∈ xs ++ ys ++ zs, id < pool.nodes.size) :
    (bridge pool chain xs.getLast? zs.head?).1.Links none (xs ++ zs) none ∧
    (bridge pool chain xs.getLast? zs.head?).2 =
      { chain with first := (xs ++ zs).head?, last := (xs ++ zs).getLast? } ∧
    pool.Relinks (xs ++ zs) (bridge pool chain xs.getLast? zs.head?).1 := by
  obtain ⟨left, right⟩ := links_append.1 runs.links
  obtain ⟨left, -⟩ := links_append.1 left
  have apart : (xs ++ zs).Nodup := nodup.sublist (by simp)
  have disjoint := List.disjoint_of_nodup_append apart
  -- first the front row is linked, then the back row
  have changed := relinks_linkAfter_getLast pool chain xs zs.head?
  have left := links_linkAfter left apart.of_append_left (fun id mem => bound id (by simp [mem]))
    chain zs.head?
  have right := changed.links right disjoint
  have ends := linkAfter_snd (ys ++ zs) (by rw [runs.first, List.append_assoc]) pool
    zs.head?
  have changed' := relinks_linkBefore_head (linkAfter pool chain xs.getLast? zs.head?).1
    (linkAfter pool chain xs.getLast? zs.head?).2 zs xs.getLast?
  have left := changed'.links left fun id mem mem' => disjoint mem' mem
  have right := links_linkBefore right apart.of_append_right
    (fun id mem => changed.size ▸ bound id (by simp [mem]))
    (linkAfter pool chain xs.getLast? zs.head?).2 xs.getLast?
  refine ⟨links_append.2 ?_, ?_, (changed.mono ?_).trans (changed'.mono ?_)⟩
  · rw [Option.or_none, Option.or_none]
    exact ⟨left, right⟩
  · have last : (linkAfter pool chain xs.getLast? zs.head?).2.last = (xs ++ ys ++ zs).getLast? := by
      rw [ends]
      exact runs.last
    show (linkBefore _ (linkAfter pool chain xs.getLast? zs.head?).2 _ _).2 = _
    rw [linkBefore_snd _ last, ends, List.head?_append, List.getLast?_append]
  · exact fun _ => List.mem_append_left zs
  · exact fun _ => List.mem_append_right xs

/-- Three rows make one row if their ends are linked. -/
theorem links_three (h : pool.Links none xs ys.head?) (h' : pool.Links xs.getLast? ys zs.head?)
    (h'' : pool.Links ys.getLast? zs none) (nonempty : ys ≠ []) :
    pool.Links none (xs ++ ys ++ zs) none := by
  obtain ⟨y, rest, rfl⟩ := List.exists_cons_of_ne_nil nonempty
  refine links_append.2 ⟨links_append.2 ⟨h, ?_⟩, ?_⟩
  · rw [Option.or_none, Option.or_none]
    exact h'
  · rw [Option.or_none, List.getLast?_append, List.getLast?_cons, Option.some_or,
      ← List.getLast?_cons]
    exact h''

/-- Links a row between two others, given by the nodes at which they meet. -/
def weave (pool : Pool) (chain : Chain) (front first last back : Option Nat) : Pool × Chain :=
  let pool := (linkBefore pool chain first front).1
  let (pool, chain) := linkAfter pool chain front first
  let pool := (linkAfter pool chain last back).1
  linkBefore pool chain back last

/-- Weaving a row in between two others makes them one. -/
theorem runs_weave (runs : Runs pool chain (xs ++ zs)) (row : pool.Links none ys none)
    (nonempty : ys ≠ []) (nodup : (xs ++ ys ++ zs).Nodup)
    (bound : ∀ id ∈ xs ++ ys ++ zs, id < pool.nodes.size) :
    (weave pool chain xs.getLast? ys.head? ys.getLast? zs.head?).1.Links none (xs ++ ys ++ zs)
      none ∧
    (weave pool chain xs.getLast? ys.head? ys.getLast? zs.head?).2 =
      { chain with first := (xs ++ ys ++ zs).head?, last := (xs ++ ys ++ zs).getLast? } ∧
    pool.Relinks (xs ++ ys ++ zs)
      (weave pool chain xs.getLast? ys.head? ys.getLast? zs.head?).1 := by
  obtain ⟨left, right⟩ := links_append.1 runs.links
  obtain ⟨nodup', nodupZ, apartZ⟩ := List.nodup_append'.1 nodup
  obtain ⟨nodupX, nodupY, apart⟩ := List.nodup_append'.1 nodup'
  have apartXZ : xs.Disjoint zs := fun id mem => apartZ (List.mem_append_left _ mem)
  have apartYZ : ys.Disjoint zs := fun id mem => apartZ (List.mem_append_right _ mem)
  have boundX : ∀ id ∈ xs, id < pool.nodes.size := fun id mem => bound id (by simp [mem])
  have boundY : ∀ id ∈ ys, id < pool.nodes.size := fun id mem => bound id (by simp [mem])
  have boundZ : ∀ id ∈ zs, id < pool.nodes.size := fun id mem => bound id (by simp [mem])
  -- four links are set, each at one end of one of the rows
  obtain ⟨pool₁, eq₁⟩ : ∃ p, p = (linkBefore pool chain ys.head? xs.getLast?).1 := ⟨_, rfl⟩
  have changed₁ : pool.Relinks ys pool₁ := eq₁ ▸ relinks_linkBefore_head pool chain ys _
  have row₁ : pool₁.Links xs.getLast? ys none := eq₁ ▸ links_linkBefore row nodupY boundY chain _
  have left₁ := changed₁.links left fun id mem mem' => apart mem' mem
  have right₁ := changed₁.links right apartYZ
  obtain ⟨r, eq₂⟩ : ∃ r, r = linkAfter pool₁ chain xs.getLast? ys.head? := ⟨_, rfl⟩
  have changed₂ : pool₁.Relinks xs r.1 := eq₂ ▸ relinks_linkAfter_getLast pool₁ chain xs _
  have left₂ : r.1.Links none xs ys.head? := eq₂ ▸ links_linkAfter left₁ nodupX
    (fun id mem => changed₁.size ▸ boundX id mem) chain _
  have row₂ := changed₂.links row₁ apart
  have right₂ := changed₂.links right₁ apartXZ
  have ends₂ : r.2 = { chain with first := xs.head?.or ys.head? } :=
    eq₂ ▸ linkAfter_snd zs runs.first pool₁ _
  obtain ⟨pool₃, eq₃⟩ : ∃ p, p = (linkAfter r.1 r.2 ys.getLast? zs.head?).1 := ⟨_, rfl⟩
  have changed₃ : r.1.Relinks ys pool₃ := eq₃ ▸ relinks_linkAfter_getLast r.1 r.2 ys _
  have left₃ := changed₃.links left₂ fun id mem mem' => apart mem' mem
  have row₃ : pool₃.Links xs.getLast? ys zs.head? := eq₃ ▸ links_linkAfter row₂ nodupY
    (fun id mem => changed₂.size ▸ changed₁.size ▸ boundY id mem) r.2 _
  have right₃ := changed₃.links right₂ apartYZ
  have changed₄ := relinks_linkBefore_head pool₃ r.2 zs ys.getLast?
  have woven : weave pool chain xs.getLast? ys.head? ys.getLast? zs.head? =
      linkBefore pool₃ r.2 zs.head? ys.getLast? := by
    rw [eq₃, eq₂, eq₁]
    rfl
  rw [woven]
  refine ⟨links_three (changed₄.links left₃ fun id mem mem' => apartXZ mem' mem)
    (changed₄.links row₃ fun id mem mem' => apartYZ mem' mem)
    (links_linkBefore right₃ nodupZ (fun id mem => ?_) r.2 _) nonempty, ?_, ?_⟩
  · exact changed₃.size ▸ changed₂.size ▸ changed₁.size ▸ boundZ id mem
  · have last : r.2.last = (xs ++ zs).getLast? := by
      rw [ends₂]
      exact runs.last
    obtain ⟨y, rest, rfl⟩ := List.exists_cons_of_ne_nil nonempty
    rw [linkBefore_snd xs last, ends₂, List.getLast?_append, List.getLast?_append,
      List.head?_append, List.head?_append, List.getLast?_cons]
    cases xs.head? <;> rfl
  · exact (((changed₁.mono (by grind)).trans (changed₂.mono (by grind))).trans
      (changed₃.mono (by grind))).trans (changed₄.mono (by grind))

/-! ### Nodes that change hands -/

/-- Moving a chain behind a row of another one. -/
theorem runs_spliceAfter (runs : Runs pool chain (xs ++ zs)) (moved : Runs pool other ys)
    (nodup : (xs ++ ys ++ zs).Nodup) (bound : ∀ id ∈ xs ++ ys ++ zs, id < pool.nodes.size) :
    Runs (spliceAfter pool chain xs.getLast? other).1
      (spliceAfter pool chain xs.getLast? other).2.1 (xs ++ ys ++ zs) ∧
    (spliceAfter pool chain xs.getLast? other).2.2 = {} ∧
    pool.Relinks (xs ++ ys ++ zs) (spliceAfter pool chain xs.getLast? other).1 := by
  by_cases nonempty : ys = []
  · subst nonempty
    obtain rfl : other = {} := by
      cases other
      cases moved
      simp_all
    rw [List.append_nil]
    exact ⟨runs, rfl, .refl pool _⟩
  · have behind : xs.getLast?.elim chain.first pool.after = zs.head? := by
      rcases List.eq_nil_or_concat xs with rfl | ⟨init, last, rfl⟩
      · exact runs.first
      · rw [List.concat_eq_append, List.append_assoc] at runs
        obtain ⟨-, after, -⟩ := (links_append.1 runs.links).2
        rw [List.concat_eq_append, List.getLast?_concat]
        rw [Option.or_none] at after
        exact after
    have woven : spliceAfter pool chain xs.getLast? other =
        ((weave pool chain xs.getLast? ys.head? ys.getLast? zs.head?).1,
          { (weave pool chain xs.getLast? ys.head? ys.getLast? zs.head?).2 with
            size :=
              (weave pool chain xs.getLast? ys.head? ys.getLast? zs.head?).2.size + other.size },
          {}) := by
      rw [← moved.first, ← moved.last, ← behind]
      have first : other.first = some (ys.head nonempty) := by
        rw [moved.first, List.head?_eq_some_head]
      have last : other.last = some (ys.getLast nonempty) := by
        rw [moved.last, List.getLast?_eq_some_getLast]
      unfold spliceAfter
      rw [first, last]
      cases xs.getLast? <;> rfl
    obtain ⟨links, ends, changed⟩ := runs_weave runs moved.links nonempty nodup bound
    rw [woven, ends]
    refine ⟨⟨rfl, rfl, ?_, links⟩, rfl, changed⟩
    show chain.size + other.size = _
    rw [runs.size, moved.size]
    simp only [List.length_append]
    omega

/-- The neighbours of a row in a chain. -/
theorem neighbours (runs : Runs pool chain (xs ++ ys ++ zs)) (front : ys.head? = some first)
    (back : ys.getLast? = some last) : pool.before first = xs.getLast? ∧
      pool.after last = zs.head? ∧ pool.Links xs.getLast? ys zs.head? := by
  have row := (links_append.1 (links_append.1 runs.links).1).2
  rw [Option.or_none, Option.or_none] at row
  refine ⟨?_, ?_, row⟩
  · obtain ⟨rest, rfl⟩ := List.head?_eq_some_iff.1 front
    exact row.1
  · obtain ⟨init, rfl⟩ := List.getLast?_eq_some_iff.1 back
    exact (links_append.1 row).2.2.1

/-- Walking from the front of a row to its end passes all its nodes. -/
theorem length_of_row (runs : Runs pool chain (xs ++ ys ++ zs)) (front : ys.head? = some first)
    (back : ys.getLast? = some last) (nodup : ys.Nodup) :
    ((pool.walk chain.size (some first)).takeWhile (· != last)).length + 1 = ys.length := by
  have links := runs.links
  rw [List.append_assoc] at links
  have enough : (ys ++ zs).length ≤ chain.size := by
    rw [runs.size]
    simp only [List.length_append]
    omega
  have walk := (links_append.1 links).2.walk enough
  rw [List.head?_append, front, Option.some_or] at walk
  obtain ⟨init, rfl⟩ := List.getLast?_eq_some_iff.1 back
  have apart : ∀ id ∈ init, (id != last) = true := by
    intro id mem
    rw [bne_iff_ne]
    rintro rfl
    exact (List.nodup_append'.1 nodup).2.2 mem (List.mem_singleton.2 rfl)
  rw [walk, List.append_assoc, List.takeWhile_append_of_pos apart]
  simp

/-- Cutting a row out of a chain. -/
theorem runs_extract (runs : Runs pool chain (xs ++ ys ++ zs)) (nodup : (xs ++ ys ++ zs).Nodup)
    (bound : ∀ id ∈ xs ++ ys ++ zs, id < pool.nodes.size) (front : ys.head? = some first)
    (back : ys.getLast? = some last) :
    Runs (extract pool chain first last).1 (extract pool chain first last).2.1 (xs ++ zs) ∧
    Runs (extract pool chain first last).1 (extract pool chain first last).2.2 ys ∧
    pool.Relinks (xs ++ ys ++ zs) (extract pool chain first last).1 := by
  obtain ⟨nodup', nodupZ, apartZ⟩ := List.nodup_append'.1 nodup
  obtain ⟨nodupX, nodupY, apart⟩ := List.nodup_append'.1 nodup'
  have outside : (xs ++ zs).Disjoint ys := by
    intro id mem mem'
    rcases List.mem_append.1 mem with mem | mem
    · exact apart mem mem'
    · exact apartZ (List.mem_append_right _ mem') mem
  have boundY : ∀ id ∈ ys, id < pool.nodes.size := fun id mem => bound id (by simp [mem])
  obtain ⟨before, after, row⟩ := neighbours runs front back
  obtain ⟨links, ends, changed⟩ := runs_bridge runs nodup bound
  obtain ⟨r, eq⟩ : ∃ r, r = bridge pool chain xs.getLast? zs.head? := ⟨_, rfl⟩
  rw [← eq] at links ends changed
  have row := changed.links row outside
  -- then the ends of the row are freed
  have changed₁ := relinks_linkBefore_head r.1 chain ys none
  have row := links_linkBefore row nodupY (fun id mem => changed.size ▸ boundY id mem) chain none
  obtain ⟨pool₁, eq₁⟩ : ∃ p, p = (linkBefore r.1 chain ys.head? none).1 := ⟨_, rfl⟩
  rw [← eq₁] at row changed₁
  have changed₂ := relinks_linkAfter_getLast pool₁ chain ys none
  have row := links_linkAfter row nodupY
    (fun id mem => changed₁.size ▸ changed.size ▸ boundY id mem) chain none
  have links := changed₁.links links fun id mem mem' => outside mem' mem
  have links := changed₂.links links fun id mem mem' => outside mem' mem
  have cut : extract pool chain first last =
      ((linkAfter pool₁ chain ys.getLast? none).1, { r.2 with size := r.2.size - ys.length },
        ⟨ys.head?, ys.getLast?, ys.length⟩) := by
    rw [eq₁, eq, ← length_of_row runs front back nodupY, ← before, ← after, front, back]
    rfl
  rw [cut, ends]
  refine ⟨⟨rfl, rfl, ?_, links⟩, ⟨rfl, rfl, rfl, row⟩, ?_⟩
  · show chain.size - ys.length = _
    rw [runs.size]
    simp only [List.length_append]
    omega
  · exact ((changed.mono (by grind)).trans (changed₁.mono (by grind))).trans
      (changed₂.mono (by grind))

/-! ### Edits of one chain -/

/-- The nodes and tokens of a chain after an edit, in which nothing has happened to the nodes
`used`. -/
structure Edited (used : List Nat) (pool pool' : Pool) (chain' : Chain) (ids' : List Nat)
    (tokens' : List Token) : Prop where
  /-- What the chain runs through. -/
  runs : Runs pool' chain' ids'
  /-- Its tokens. -/
  tokens : ids'.map pool'.token = tokens'
  /-- The nodes are owned or free. -/
  owns : pool'.Owns (ids' ++ used)
  /-- The others have kept their tokens and links. -/
  kept : ∀ id ∈ used, pool'.node id = pool.node id

namespace Edited

variable {chain' : Chain} {pool' : Pool} {ids' : List Nat}

theorem of_relinks (owns : pool.Owns (ids ++ used)) (changed : pool.Relinks ids pool')
    (runs : Runs pool' chain' ids') (same : ids'.Perm ids) :
    Edited used pool pool' chain' ids' (ids'.map pool.token) where
  runs := runs
  tokens := changed.map_token ids'
  owns := (changed.owns owns).perm (same.append_right used)
  kept id mem := changed.node id fun mem' =>
    (List.nodup_append'.1 owns.nodup).2.2 mem' mem

/-- An edit that was prepared by one in which the others kept their nodes. -/
theorem since {before : Pool} {tokens tokens' : List Token}
    (h : Edited used pool pool' chain' ids' tokens) (same : tokens = tokens')
    (kept : ∀ id ∈ used, pool.node id = before.node id) :
    Edited used before pool' chain' ids' tokens' :=
  ⟨h.runs, h.tokens.trans same, h.owns, fun id mem => (h.kept id mem).trans (kept id mem)⟩

end Edited

/-- A chain that was edited apart from another one is spliced into that one. -/
theorem Edited.spliced {pool' : Pool} {ids' : List Nat} {tokens : List Token}
    (runs : Runs pool chain (xs ++ zs))
    (h : Edited (xs ++ zs ++ used) pool pool' other ids' tokens) :
    Edited used pool (spliceAfter pool' chain xs.getLast? other).1
      (spliceAfter pool' chain xs.getLast? other).2.1 (xs ++ ids' ++ zs)
      (xs.map pool.token ++ tokens ++ zs.map pool.token) := by
  have same : ∀ k ∈ xs ++ zs, pool'.node k = pool.node k := fun k mem =>
    h.kept k (List.mem_append_left used mem)
  have owns : pool'.Owns (xs ++ ids' ++ zs ++ used) := by
    refine h.owns.perm (List.perm_iff_count.2 fun k => ?_)
    simp only [List.count_append]
    omega
  obtain ⟨joined, -, changed⟩ := runs_spliceAfter (runs.congr same) h.runs
    owns.nodup.of_append_left fun k mem => owns.lt (List.mem_append_left _ mem)
  refine (of_relinks owns changed joined (.refl _)).since ?_ fun k mem =>
    h.kept k (List.mem_append_right _ mem)
  rw [List.forall_mem_append] at same
  rw [List.map_append, List.map_append, h.tokens, map_token_congr same.1, map_token_congr same.2]

/-- A node that has been allocated is a chain, apart from all others. -/
theorem runs_allocate (runs : Runs pool chain ids) (owns : pool.Owns (ids ++ used))
    (token : Token) : ∃ id, (pool.allocate token).2 = id ∧
      (pool.allocate token).1.Owns (id :: ids ++ used) ∧ (pool.allocate token).1.token id = token ∧
      Runs (pool.allocate token).1 ⟨some id, some id, 1⟩ [id] ∧
      Runs (pool.allocate token).1 chain ids ∧
      ids.map (pool.allocate token).1.token = ids.map pool.token ∧
      ∀ id ∈ used, (pool.allocate token).1.node id = pool.node id := by
  obtain ⟨owns', node, kept⟩ := owns_allocate owns token
  refine ⟨_, rfl, owns', congrArg Node.token node, ⟨rfl, rfl, rfl, ?_⟩, runs.congr fun id mem => ?_,
    map_token_congr fun id mem => ?_, fun id mem => ?_⟩
  · exact ⟨congrArg Node.before node, congrArg Node.after node, trivial⟩
  · exact kept id (List.mem_append_left _ mem)
  · exact kept id (List.mem_append_left _ mem)
  · exact kept id (List.mem_append_right _ mem)

/-- Appending a token. -/
theorem runs_push (runs : Runs pool chain ids) (owns : pool.Owns (ids ++ used)) (token : Token) :
    ∃ id, Edited used pool (push pool chain token).1 (push pool chain token).2 (ids ++ [id])
      (ids.map pool.token ++ [token]) := by
  obtain ⟨id, same, owns, holds, single, runs, tokens, kept⟩ := runs_allocate runs owns token
  obtain ⟨pool', eq⟩ : ∃ p, p = (pool.allocate token).1 := ⟨_, rfl⟩
  rw [← eq] at owns holds single runs tokens kept
  have nodup := owns.nodup.of_append_left
  have apart : ids.Disjoint [id] := fun other mem mem' =>
    (List.nodup_cons.1 nodup).1 (List.mem_singleton.1 mem' ▸ mem)
  -- the chain is linked to the node, then the node to the chain
  have changed := relinks_linkAfter_getLast pool' chain ids (some id)
  have left := links_linkAfter runs.links (List.nodup_cons.1 nodup).2
    (fun other mem => owns.lt (by simp [mem])) chain (some id)
  have ends := linkAfter_snd [] (by rw [runs.first, List.append_nil]) pool' (some id)
  have right := changed.links single.links apart
  obtain ⟨r, eq'⟩ : ∃ r, r = linkAfter pool' chain ids.getLast? (some id) := ⟨_, rfl⟩
  rw [← eq'] at changed left ends right
  have changed' := relinks_linkBefore_head r.1 r.2 [id] ids.getLast?
  have left := changed'.links left fun other mem mem' => apart mem' mem
  have right := links_linkBefore right (List.nodup_singleton id)
    (fun other mem => changed.size ▸ owns.lt (List.mem_singleton.1 mem ▸ by simp)) r.2 ids.getLast?
  have pushed : push pool chain token = ((linkBefore r.1 r.2 [id].head? ids.getLast?).1,
      { r.2 with last := some id, size := r.2.size + 1 }) := by
    have last : r.2.last = ids.getLast? := by
      rw [ends]
      exact runs.last
    rw [← last, eq', ← runs.last, eq, ← same]
    rfl
  have owns : pool'.Owns (ids ++ [id] ++ used) := owns.perm (by grind)
  have all := (changed.mono fun _ => List.mem_append_left [id]).trans
    (changed'.mono fun _ => List.mem_append_right ids)
  have runs : Runs (push pool chain token).1 (push pool chain token).2 (ids ++ [id]) := by
    rw [pushed]
    refine ⟨?_, List.getLast?_concat.symm, ?_, links_append.2 ?_⟩
    · show r.2.first = _
      rw [ends, List.head?_append]
      rfl
    · show r.2.size + 1 = _
      rw [ends, List.length_append, List.length_singleton, ← runs.size]
    · rw [Option.or_none, Option.or_none]
      exact ⟨left, right⟩
  rw [pushed] at runs ⊢
  refine ⟨id, (Edited.of_relinks owns all runs (.refl _)).since ?_ kept⟩
  rw [List.map_append, tokens, List.map_singleton, holds]

/-- Appending tokens one after the other. -/
theorem runs_foldl_push (runs : Runs pool chain ids) (owns : pool.Owns (ids ++ used))
    (tokens : List Token) : ∃ ids', Edited used pool
      (tokens.foldl (fun r token => push r.1 r.2 token) (pool, chain)).1
      (tokens.foldl (fun r token => push r.1 r.2 token) (pool, chain)).2 ids'
      (ids.map pool.token ++ tokens) := by
  induction tokens generalizing pool chain ids with
  | nil => exact ⟨ids, runs, (List.append_nil _).symm, owns, fun _ _ => rfl⟩
  | cons token tokens ih =>
    obtain ⟨id, pushed⟩ := runs_push runs owns token
    obtain ⟨ids', more⟩ := ih pushed.runs pushed.owns
    refine ⟨ids', more.since ?_ pushed.kept⟩
    rw [pushed.tokens, List.append_assoc]
    rfl

/-- A chain of the given tokens, apart from all others. -/
theorem runs_ofTokens (owns : pool.Owns used) (tokens : List Token) :
    ∃ ids, Edited used pool (ofTokens pool tokens).1 (ofTokens pool tokens).2 ids tokens :=
  runs_foldl_push (.empty pool) owns tokens

/-- Inserting a token. -/
theorem runs_insertAfter (runs : Runs pool chain (xs ++ zs)) (owns : pool.Owns (xs ++ zs ++ used))
    (token : Token) : ∃ id, (pool.allocate token).2 = id ∧
      Edited used pool (insertAfter pool chain xs.getLast? token).1
        (insertAfter pool chain xs.getLast? token).2 (xs ++ [id] ++ zs)
        (xs.map pool.token ++ [token] ++ zs.map pool.token) := by
  obtain ⟨id, same, owns, holds, single, runs, tokens, kept⟩ := runs_allocate runs owns token
  obtain ⟨pool', eq⟩ : ∃ p, p = (pool.allocate token).1 := ⟨_, rfl⟩
  rw [← eq] at owns holds single runs tokens kept
  have owns : pool'.Owns (xs ++ [id] ++ zs ++ used) := owns.perm (by grind)
  obtain ⟨runs, -, changed⟩ := runs_spliceAfter runs single owns.nodup.of_append_left
    fun other mem => owns.lt (List.mem_append_left _ mem)
  have inserted : insertAfter pool chain xs.getLast? token =
      ((spliceAfter pool' chain xs.getLast? ⟨some id, some id, 1⟩).1,
        (spliceAfter pool' chain xs.getLast? ⟨some id, some id, 1⟩).2.1) := by
    rw [eq, ← same]
    rfl
  rw [inserted]
  refine ⟨id, same, (Edited.of_relinks owns changed runs (.refl _)).since ?_ kept⟩
  rw [List.map_append, List.map_append] at tokens
  obtain ⟨front, back⟩ := List.append_inj tokens (by simp)
  rw [List.map_append, List.map_append, front, back, List.map_singleton, holds]

/-- Removing a token. -/
theorem runs_remove (runs : Runs pool chain (xs ++ [id] ++ zs))
    (owns : pool.Owns (xs ++ [id] ++ zs ++ used)) :
    Edited used pool (remove pool chain id).1 (remove pool chain id).2.1 (xs ++ zs)
      ((xs ++ zs).map pool.token) := by
  obtain ⟨before, after, -⟩ := neighbours runs rfl rfl
  obtain ⟨links, ends, changed⟩ := runs_bridge runs owns.nodup.of_append_left
    fun other mem => owns.lt (List.mem_append_left _ mem)
  obtain ⟨r, eq⟩ : ∃ r, r = bridge pool chain xs.getLast? zs.head? := ⟨_, rfl⟩
  rw [← eq] at links ends changed
  have removed : remove pool chain id =
      (r.1.release id, { r.2 with size := r.2.size - 1 }, pool.token id) := by
    rw [eq, ← before, ← after]
    rfl
  have apart := owns.nodup
  have owns : pool.Owns (id :: (xs ++ zs ++ used)) := owns.perm (by grind)
  obtain ⟨owns', kept⟩ := owns_release (changed.owns owns)
  rw [removed, ends]
  refine ⟨⟨rfl, rfl, ?_, links.congr fun other mem => ?_⟩, ?_, owns', fun other mem => ?_⟩
  · show chain.size - 1 = _
    rw [runs.size]
    simp only [List.length_append, List.length_singleton]
    omega
  · exact kept other (List.mem_append_left _ mem)
  · rw [← changed.map_token]
    exact map_token_congr fun other mem => kept other (List.mem_append_left _ mem)
  · refine (kept other (List.mem_append_right _ mem)).trans (changed.node other fun mem' => ?_)
    grind

/-- Replacing a token. -/
theorem runs_replace (runs : Runs pool chain (xs ++ [id] ++ zs))
    (owns : pool.Owns (xs ++ [id] ++ zs ++ used)) (token : Token) :
    Edited used pool (pool.replace id token) chain (xs ++ [id] ++ zs)
      (xs.map pool.token ++ [token] ++ zs.map pool.token) := by
  have bound := owns.lt (List.mem_append_left used (List.mem_append_left zs
    (List.mem_append_right xs (List.mem_singleton.2 rfl))))
  have node : (pool.replace id token).node id = { pool.node id with token } :=
    node_put_self bound _
  have other : ∀ k, k ≠ id → (pool.replace id token).node k = pool.node k := fun k apart =>
    node_put_of_ne apart _
  have nodup := owns.nodup
  refine ⟨⟨runs.first, runs.last, runs.size, runs.links.of_links fun k _ => ?_⟩, ?_, ?_,
    fun k mem => other k ?_⟩
  · by_cases same : k = id
    · subst same
      have before := congrArg Node.before node
      have after := congrArg Node.after node
      exact ⟨before, after⟩
    · exact ⟨congrArg Node.before (other k same), congrArg Node.after (other k same)⟩
  · have outside : ∀ ks : List Nat, id ∉ ks →
        ks.map (pool.replace id token).token = ks.map pool.token := fun ks apart =>
      map_token_congr fun k mem => other k fun same => apart (same ▸ mem)
    have inside : (pool.replace id token).token id = token := congrArg Node.token node
    rw [List.map_append, List.map_append, outside xs (by grind), outside zs (by grind),
      List.map_singleton, inside]
  · show (_ ++ pool.free).Perm (List.range (pool.put id _).nodes.size)
    rw [size_put]
    exact owns
  · grind

/-- Giving up all nodes. -/
theorem runs_clear (runs : Runs pool chain ids) (owns : pool.Owns (ids ++ used)) :
    Edited used pool (clear pool chain).1 (clear pool chain).2 [] [] := by
  unfold clear
  rw [runs.ids_eq]
  obtain ⟨owns', kept⟩ := owns_foldl_release owns
  exact ⟨.empty _, rfl, owns', kept⟩

/-! ### Splitting -/

/-- Chains through nodes that hold the given contents, after an edit in which nothing has happened
to the nodes `used`. -/
def Divided (used : List Nat) (pool pool' : Pool) (chains' : List Chain)
    (contents' : List (List Token)) : Prop :=
  ∃ idss, List.Forall₂ (Runs pool') chains' idss ∧ idss.map (·.map pool'.token) = contents' ∧
    pool'.Owns (idss.flatten ++ used) ∧ ∀ id ∈ used, pool'.node id = pool.node id

theorem Edited.divided {pool' : Pool} {chain' : Chain} {ids' : List Nat} {tokens : List Token}
    (h : Edited used pool pool' chain' ids' tokens) :
    Divided used pool pool' [chain'] [tokens] := by
  refine ⟨[ids'], .cons h.runs .nil, congrArg (· :: []) h.tokens, ?_, h.kept⟩
  rw [List.flatten_singleton]
  exact h.owns

/-- Cutting off what stands in front of a separator. -/
theorem runs_cutPiece (runs : Runs pool chain (xs ++ id :: zs)) (nodup : (xs ++ id :: zs).Nodup)
    (bound : ∀ id' ∈ xs ++ id :: zs, id' < pool.nodes.size) :
    Runs (cutPiece pool chain (xs ++ id :: zs).head? id).1
      (cutPiece pool chain (xs ++ id :: zs).head? id).2.1 (id :: zs) ∧
    Runs (cutPiece pool chain (xs ++ id :: zs).head? id).1
      (cutPiece pool chain (xs ++ id :: zs).head? id).2.2 xs ∧
    pool.Relinks (xs ++ id :: zs) (cutPiece pool chain (xs ++ id :: zs).head? id).1 := by
  have before : pool.before id = xs.getLast? := by
    rw [List.append_cons] at runs
    exact (neighbours runs rfl rfl).1
  unfold cutPiece
  rw [before]
  rcases List.eq_nil_or_concat xs with rfl | ⟨init, last, rfl⟩
  · exact ⟨runs, .empty pool, .refl pool _⟩
  · rw [List.concat_eq_append] at *
    obtain ⟨first, rest, eq⟩ : ∃ first rest, init ++ [last] = first :: rest :=
      List.exists_cons_of_ne_nil (by simp)
    have front : (init ++ [last]).head? = some first := by rw [eq]; rfl
    have back : (init ++ [last]).getLast? = some last := List.getLast?_concat
    have apart : first ≠ id := by
      rintro rfl
      rw [eq] at nodup
      grind
    rw [List.head?_append, front, back, Option.some_or]
    simp only [if_neg apart]
    exact @runs_extract _ _ [] _ _ _ _ runs nodup bound front back

/-- Nodes carry the symbols of their tokens. -/
abbrev labels (pool : Pool) : HasSymbol Nat := ⟨fun id => symbol? (pool.token id)⟩

theorem bracketRole_labels (pool : Pool) (id : Nat) :
    @bracketRole _ (labels pool) id = bracketRole (pool.token id) := rfl

theorem isSymbol_labels (pool : Pool) (separator : Symbol) (id : Nat) :
    @isSymbol _ (labels pool) separator id = isSymbol separator (pool.token id) := rfl

theorem splitTop_labels {pool' : Pool} (same : ∀ id ∈ ids, pool'.token id = pool.token id)
    (separator : Symbol) (depth : Nat) : @splitTop _ (labels pool') separator depth ids =
      @splitTop _ (labels pool) separator depth ids := by
  have alike := @splitTop_map _ (labels pool') _ (labels pool) (fun id => id) ids
    (fun id mem => congrArg symbol? (same id mem)) separator depth
  simpa only [List.map_id'] using alike

theorem size_remove (pool : Pool) (chain : Chain) (id : Nat) :
    (remove pool chain id).1.nodes.size = pool.nodes.size := by
  have bridged := (relinks_linkBefore (linkAfter pool chain (pool.before id) (pool.after id)).1
    (linkAfter pool chain (pool.before id) (pool.after id)).2 (pool.after id) (pool.before id)).size
  rw [(relinks_linkAfter pool chain (pool.before id) (pool.after id)).size] at bridged
  exact (size_put _ id vacant).trans bridged

/-- What has become of the nodes of a chain that was split: chains run through the pieces, and
nothing has happened to the nodes `used`. -/
structure Parted (used : List Nat) (pool pool' : Pool) (chains' : List Chain)
    (pieces : List (List Nat)) : Prop where
  /-- A chain runs through each piece. -/
  runs : List.Forall₂ (Runs pool') chains' pieces
  /-- The nodes of the pieces hold what they held. -/
  token : ∀ piece ∈ pieces, ∀ id ∈ piece, pool'.token id = pool.token id
  /-- The nodes are owned or free. -/
  owns : pool'.Owns (pieces.flatten ++ used)
  /-- The others have kept their tokens and links. -/
  kept : ∀ id ∈ used, pool'.node id = pool.node id
  /-- There are as many nodes. -/
  size : pool'.nodes.size = pool.nodes.size

/-- A chain is parted at a node, which is given up. -/
theorem parted_cutPiece (runs : Runs pool chain (xs ++ id :: ids))
    (owns : pool.Owns (xs ++ id :: ids ++ used)) {r : Pool × Chain × Chain}
    (eq : cutPiece pool chain (xs ++ id :: ids).head? id = r) :
    Parted used pool (remove r.1 r.2.1 id).1 [r.2.2, (remove r.1 r.2.1 id).2.1] [xs, ids] := by
  obtain ⟨behind, before, changed⟩ := runs_cutPiece runs owns.nodup.of_append_left
    fun other mem => owns.lt (List.mem_append_left _ mem)
  rw [eq] at behind before changed
  have owns' : r.1.Owns ([] ++ [id] ++ ids ++ (xs ++ used)) := (changed.owns owns).perm (by grind)
  have edited := @runs_remove _ _ [] _ _ _ behind owns'
  have kept : ∀ other ∈ xs, (remove r.1 r.2.1 id).1.node other = r.1.node other :=
    fun other mem => edited.kept other (List.mem_append_left _ mem)
  refine ⟨.cons (before.congr kept) (.cons edited.runs .nil), ?_, edited.owns.perm (by grind),
    fun other mem => ?_, (size_remove r.1 r.2.1 id).trans changed.size⟩
  · refine List.forall_mem_cons.2 ⟨fun other mem => ?_, List.forall_mem_singleton.2 ?_⟩
    · exact (congrArg Node.token (kept other mem)).trans (changed.token other)
    · exact List.map_inj_left.1 (edited.tokens.trans (changed.map_token ids))
  · refine (edited.kept other (List.mem_append_right xs mem)).trans (changed.node other ?_)
    exact fun inside => (List.nodup_append'.1 owns.nodup).2.2 inside mem

/-- What is left behind the first piece is parted further. -/
theorem Parted.further {pool₁ pool₂ : Pool} {piece rest : Chain} {chains : List Chain}
    {pieces : List (List Nat)} (first : Parted used pool pool₁ [piece, rest] [xs, ids])
    (second : Parted (xs ++ used) pool₁ pool₂ chains pieces)
    (inside : ∀ id ∈ pieces.flatten, id ∈ ids) :
    Parted used pool pool₂ (piece :: chains) (xs :: pieces) := by
  have kept : ∀ id ∈ xs, pool₂.node id = pool₁.node id := fun id mem =>
    second.kept id (List.mem_append_left _ mem)
  obtain ⟨tokenX, tokenIds⟩ := List.forall_mem_cons.1 first.token
  refine ⟨.cons ((List.forall₂_cons.1 first.runs).1.congr kept) second.runs,
    List.forall_mem_cons.2 ⟨fun id mem => ?_, fun p mem id mem' => ?_⟩,
    second.owns.perm (by grind), fun id mem => ?_, second.size.trans first.size⟩
  · exact (congrArg Node.token (kept id mem)).trans (tokenX id mem)
  · exact (second.token p mem id mem').trans
      (tokenIds ids List.mem_cons_self id (inside id (List.mem_flatten_of_mem mem mem')))
  · exact (second.kept id (List.mem_append_right xs mem)).trans (first.kept id mem)

/-- **Splitting a chain**, of which `xs` has been passed since the last separator. -/
theorem runs_splitFrom (separator : Symbol) (runs : Runs pool chain (xs ++ ids))
    (owns : pool.Owns (xs ++ ids ++ used)) (depth : Nat) :
    ∃ piece pieces, @splitTop _ (labels pool) separator depth ids = piece :: pieces ∧
      Parted used pool (splitFrom separator pool chain depth (xs ++ ids).head? ids).1
        (splitFrom separator pool chain depth (xs ++ ids).head? ids).2
        ((xs ++ piece) :: pieces) := by
  induction ids generalizing pool chain xs used depth with
  | nil =>
    refine ⟨[], [], rfl, .cons runs .nil, fun _ _ _ _ => rfl, ?_, fun _ _ => rfl, rfl⟩
    show pool.Owns _
    simpa using owns
  | cons id ids ih =>
    -- a node that is no separator belongs to the piece that has been begun
    have pass : ∀ depth', ∃ piece pieces,
        consToFirst id (@splitTop _ (labels pool) separator depth' ids) = piece :: pieces ∧
        Parted used pool (splitFrom separator pool chain depth' (xs ++ id :: ids).head? ids).1
          (splitFrom separator pool chain depth' (xs ++ id :: ids).head? ids).2
          ((xs ++ piece) :: pieces) := by
      intro depth'
      have shift : xs ++ id :: ids = xs ++ [id] ++ ids := List.append_cons xs id ids
      rw [shift] at runs owns
      obtain ⟨piece, pieces, eq, parted⟩ := ih runs owns depth'
      rw [eq]
      refine ⟨id :: piece, pieces, rfl, ?_⟩
      rwa [← shift, List.append_assoc] at parted
    unfold splitFrom splitTop
    rw [bracketRole_labels, isSymbol_labels]
    cases role : bracketRole (pool.token id) with
    | opening => exact pass (depth + 1)
    | closing => exact pass (depth - 1)
    | neutral =>
      by_cases top : (isSymbol separator (pool.token id) && depth == 0) = true
      · simp only [top, if_true]
        -- the piece is cut off, the separator is given up, and a new piece begins
        have after : pool.after id = ids.head? := by
          rw [List.append_cons] at runs
          exact (neighbours runs rfl rfl).2.1
        rw [after]
        generalize cut : cutPiece pool chain (xs ++ id :: ids).head? id = r
        have first := parted_cutPiece runs owns cut
        obtain ⟨-, behind⟩ := List.forall₂_cons.1 first.runs
        have tokens := (List.forall_mem_cons.1 first.token).2 ids List.mem_cons_self
        obtain ⟨piece, pieces, eq, parted⟩ := @ih _ _ [] (xs ++ used)
          (List.forall₂_cons.1 behind).1 (first.owns.perm (by grind)) depth
        rw [splitTop_labels tokens] at eq
        refine ⟨[], piece :: pieces, congrArg ([] :: ·) eq, ?_⟩
        rw [List.append_nil]
        refine first.further parted fun other mem => ?_
        rw [← eq] at mem
        exact (@flatten_splitTop_sublist _ (labels pool) separator depth ids).mem mem
      · simp only [top]
        exact pass depth

theorem runs_of_forall₂ {pool : Pool} {chains : List Chain} {idss : List (List Nat)}
    (h : List.Forall₂ (Runs pool) chains idss) : (∀ c ∈ chains, Runs pool c (c.ids pool)) ∧
      chains.map (·.ids pool) = idss ∧
      chains.map (·.tokens pool) = idss.map (·.map pool.token) := by
  induction h with
  | nil => exact ⟨nofun, rfl, rfl⟩
  | cons runs _ ih =>
    rw [List.map_cons, List.map_cons, List.map_cons, ih.2.1, ih.2.2, runs.ids_eq, runs.tokens_eq]
    refine ⟨List.forall_mem_cons.2 ⟨?_, ih.1⟩, rfl, rfl⟩
    rw [runs.ids_eq]
    exact runs

/-- **A chain is split where its list is.** -/
theorem runs_split (runs : Runs pool chain ids) (owns : pool.Owns (ids ++ used))
    (separator : Symbol) : Parted used pool (split pool chain separator).1
      (split pool chain separator).2 (@splitTop _ (labels pool) separator 0 ids) := by
  obtain ⟨piece, pieces, eq, parted⟩ :=
    @runs_splitFrom pool chain ids [] used separator runs owns 0
  unfold split
  rw [runs.ids_eq, runs.first, eq]
  exact parted

/-- What the pieces hold is cut out of what the chain held. -/
theorem Parted.tokens {pool' : Pool} {chains' : List Chain} {separator : Symbol}
    (h : Parted used pool pool' chains' (@splitTop _ (labels pool) separator 0 ids)) :
    (@splitTop _ (labels pool) separator 0 ids).map (·.map pool'.token) =
      splitTop separator 0 (ids.map pool.token) := by
  have cut := @splitTop_map _ _ _ (labels pool) pool.token ids (fun _ _ => rfl) separator 0
  rw [cut]
  exact List.map_congr_left fun piece mem => List.map_congr_left (h.token piece mem)

end Chain

end MatrixCalc
