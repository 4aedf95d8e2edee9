import MatrixCalc.Proofs.Chain.Edits

/-!
# Splitting loses nothing

A chain is split in place: the loop cuts pieces out of the chain that it walks along, and gives up
the separators on the way.

* `Chain.perm_free_of_split` : the nodes that become free are those of the separators.
* `Chain.split_partitions` : **every node of the chain is in one piece, or is that of a separator
  and free**, and the pieces with separators in between hold what the chain held.
-/

namespace MatrixCalc

namespace Chain

open Pool

variable {pool : Pool} {chain : Chain} {ids used : List Nat} {separator : Symbol}

/-- The tokens of a list, intercalated with the separator, are cut out of a list of tokens. -/
theorem intercalate_splitTop (plain : separator.role = .neutral) (depth : Nat)
    (tokens : List Token) :
    [Token.symbol separator].intercalate (splitTop separator depth tokens) = tokens := by
  have same : ∀ t ∈ topSeparators separator depth tokens, t = .symbol separator := by
    intro t mem
    exact Token.isSymbol_iff.1 (isSymbol_of_mem_topSeparators mem)
  rw [← rejoin_eq_intercalate same (length_splitTop plain depth tokens),
    rejoin_splitTop plain]

/-- The nodes of the separators are given up, and no others. -/
theorem perm_free_of_split (plain : separator.role = .neutral) (runs : Runs pool chain ids)
    (owns : pool.Owns (ids ++ used)) : (split pool chain separator).1.free.Perm
      (@topSeparators _ (labels pool) separator 0 ids ++ pool.free) := by
  have parted := runs_split runs owns separator
  have whole := perm_rejoin (@length_splitTop _ (labels pool) _ plain 0 ids)
  rw [@rejoin_splitTop _ (labels pool) _ plain] at whole
  generalize @splitTop _ (labels pool) separator 0 ids = pieces at *
  generalize @topSeparators _ (labels pool) separator 0 ids = separators at *
  -- both pools have the same nodes: those in use, and the free ones
  have nodes := parted.owns
  unfold Owns at nodes owns
  rw [parted.size] at nodes
  have all := nodes.trans owns.symm
  have all : (pieces.flatten ++ used ++ (split pool chain separator).1.free).Perm
      (pieces.flatten ++ used ++ (separators ++ pool.free)) := by
    grind
  exact (List.perm_append_left_iff _).1 all

/-- **Splitting loses nothing.**  The pieces of a chain are chains of their own.  There is one more
than there are separators that stand in no group, and none of them can be split again.  With the
separators in between they are the chain, node by node and token by token; the nodes of the
separators, and no others, become free. -/
theorem split_partitions (plain : separator.role = .neutral) (runs : Runs pool chain ids)
    (owns : pool.Owns (ids ++ used)) : ∃ pieces separators,
      List.Forall₂ (Runs (split pool chain separator).1) (split pool chain separator).2 pieces ∧
      rejoin pieces separators = ids ∧
      (pieces.flatten ++ separators).Perm ids ∧
      (∀ id ∈ separators, pool.token id = .symbol separator) ∧
      (split pool chain separator).1.free.Perm (separators ++ pool.free) ∧
      (split pool chain separator).1.Owns (pieces.flatten ++ used) ∧
      (∀ id ∈ used, (split pool chain separator).1.node id = pool.node id) ∧
      (split pool chain separator).2.length =
        (topSeparators separator 0 (chain.tokens pool)).length + 1 ∧
      (∀ piece ∈ (split pool chain separator).2,
        topSeparators separator 0 (piece.tokens (split pool chain separator).1) = []) ∧
      [Token.symbol separator].intercalate
        ((split pool chain separator).2.map (·.tokens (split pool chain separator).1)) =
          chain.tokens pool := by
  have parted := runs_split runs owns separator
  have length := @length_splitTop _ (labels pool) _ plain 0 ids
  have whole := @rejoin_splitTop _ (labels pool) _ plain 0 ids
  have contents : (split pool chain separator).2.map (·.tokens (split pool chain separator).1) =
      splitTop separator 0 (chain.tokens pool) := by
    rw [(runs_of_forall₂ parted.runs).2.2, parted.tokens, runs.tokens_eq]
  refine ⟨_, _, parted.runs, whole, ?_, fun id mem => ?_, perm_free_of_split plain runs owns,
    parted.owns, parted.kept, ?_, fun piece mem => ?_, ?_⟩
  · have perm := perm_rejoin length
    rw [whole] at perm
    exact perm.symm
  · have is := @isSymbol_of_mem_topSeparators _ (labels pool) _ _ _ _ mem
    exact Token.isSymbol_iff.1 is
  · rw [← length_splitTop plain, ← contents, List.length_map]
  · have mem' := List.mem_map_of_mem (f := (·.tokens (split pool chain separator).1)) mem
    rw [contents] at mem'
    exact topSeparators_of_mem_splitTop plain mem'
  · rw [contents]
    exact intercalate_splitTop plain 0 _

/-- A trailing comma and a comma in brackets: the last piece is empty, and the brackets stay
together. -/
theorem split_partitions_of_commas : ∃ tokens ids,
    tokens = [.integer 1, .symbol .comma, .symbol .parenLeft, .integer 2, .symbol .comma,
      .integer 3, .symbol .parenRight, .symbol .comma] ∧
    Symbol.comma.role = .neutral ∧
    Runs (ofTokens {} tokens).1 (ofTokens {} tokens).2 ids ∧
    (ofTokens {} tokens).1.Owns (ids ++ []) ∧
    (split (ofTokens {} tokens).1 (ofTokens {} tokens).2 .comma).2.length = 3 ∧
    [Token.symbol .comma].intercalate
      ((split (ofTokens {} tokens).1 (ofTokens {} tokens).2 .comma).2.map
        (·.tokens (split (ofTokens {} tokens).1 (ofTokens {} tokens).2 .comma).1)) = tokens := by
  obtain ⟨ids, start⟩ := runs_ofTokens .empty [.integer 1, .symbol .comma, .symbol .parenLeft,
    .integer 2, .symbol .comma, .integer 3, .symbol .parenRight, .symbol .comma]
  obtain ⟨_, _, -, -, -, -, -, -, -, length, -, joined⟩ :=
    @split_partitions _ _ _ _ .comma rfl start.runs start.owns
  rw [start.runs.tokens_eq, start.tokens] at length joined
  exact ⟨_, ids, rfl, rfl, start.runs, start.owns, length, joined⟩

end Chain

end MatrixCalc
