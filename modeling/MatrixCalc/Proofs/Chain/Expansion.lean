import MatrixCalc.Proofs.Chain.Edits
import MatrixCalc.Proofs.Invocation.Expansion

/-!
# Expansion in place

Macros are expanded in a chain: a cursor goes along the chain, invocations are cut out of it, and
what they stand for is built as a chain of its own, expanded, and spliced in where the invocation
stood.  A loop that follows a cursor might not end, so the number of its turns is bounded, and using
them up is an outcome of its own.

* `Chain.expandWithin`, `Chain.expand` : the expansion of macros in a chain.
* `Chain.Agrees` : an outcome on chains is that on lists.
* `Chain.replaced_replaceCall` : an invocation is replaced, and the nodes around it stay.
* `Chain.agrees_scan` : **no loop takes more turns than its chain has nodes behind the cursor.**
* `Chain.agrees_expand` : **expansion in place ends, and gives what expansion gives**; it gives up
  the nodes of the invocations and leaves all other chains alone.
-/

namespace MatrixCalc

open EStateM (Result)

namespace Chain

open Pool

/-! ### The loop -/

/-- The macro that is invoked at a node, and the node of the opening bracket behind it. -/
def invoked? (table : Bindings Macro) (pool : Pool) (id : Nat) : Option (Macro × Nat) :=
  match pool.token id, pool.after id with
  | .word name, some opening =>
    if isSymbol .parenLeft (pool.token opening) then (table.find? name).map (·, opening) else none
  | _, _ => none

/-- Cuts what stands between the brackets out of an invocation. -/
def cutInside (pool : Pool) (call : Chain) (opening close : Nat) : Pool × Chain × Chain :=
  match pool.after opening, pool.before close with
  | some first, some last =>
    if first = close then (pool, call, {}) else extract pool call first last
  | _, _ => (pool, call, {})

/-- Cuts an invocation out of a chain.  The nodes between its brackets become a chain of their own,
the name and the brackets are given up. -/
def cutCall (pool : Pool) (chain : Chain) (id opening close : Nat) : Pool × Chain × Chain :=
  let (pool, chain, call) := extract pool chain id close
  let (pool, call, inside) := cutInside pool call opening close
  ((clear pool call).1, chain, inside)

/-- What chains hold; their nodes are given up. -/
def drain (pool : Pool) : List Chain → Pool × List (List Token)
  | [] => (pool, [])
  | chain :: chains =>
    let (pool', contents) := drain (clear pool chain).1 chains
    (pool', chain.tokens pool :: contents)

/-- The arguments in the brackets of an invocation, whose nodes are given up. -/
def takeArguments (pool : Pool) (inside : Chain) : Pool × List (List Token) :=
  if inside.size = 0 then (pool, [])
  else
    let (pool, pieces) := split pool inside .comma
    drain pool pieces

/-- Replaces the invocation of a macro from a node to its closing bracket; `expandInner` expands
what the invocation stands for. -/
def replaceCall (expandInner : Pool → Chain → Logged (Option (Pool × Chain))) (pool : Pool)
    (chain : Chain) (m : Macro) (id opening close : Nat) : Logged (Option (Pool × Chain)) := do
  let before := pool.before id
  let (pool, chain, inside) := cutCall pool chain id opening close
  let (pool, pieces) := takeArguments pool inside
  let args ← Logged.ofExcept ((m.accept pieces).mapError .malformed)
  Logged.record (.expanding m.name)
  let (pool, expansion) := ofTokens pool (m.instantiate args)
  match ← expandInner pool expansion with
  | none => return none
  | some (pool, expansion) =>
    let (pool, chain, _) := spliceAfter pool chain before expansion
    return some (pool, chain)

/-- Follows the cursor to the end of a chain and replaces the invocations on the way.  Behind an
invocation the scan goes on at the node that stood there before.  There is no outcome if the turns
do not suffice. -/
def scan (table : Bindings Macro) (expandInner : Pool → Chain → Logged (Option (Pool × Chain))) :
    Nat → Pool → Chain → Option Nat → Logged (Option (Pool × Chain))
  | _, pool, chain, none => return some (pool, chain)
  | 0, _, _, some _ => return none
  | turns + 1, pool, chain, some id =>
    match invoked? table pool id with
    | none => scan table expandInner turns pool chain (pool.after id)
    | some (m, opening) =>
      match matchingClose pool chain opening with
      | none => throw (.malformed .unterminatedInvocation)
      | some close => do
        -- this node is neither cut out nor spliced in
        let after := pool.after close
        match ← replaceCall expandInner pool chain m id opening close with
        | none => return none
        | some (pool, chain) => scan table expandInner turns pool chain after

/-- Expands the macros in a chain, in which `allowance - 1` further expansions may nest.  A turn of
the loop passes a node, so there are as many turns as nodes. -/
def expandWithin (table : Bindings Macro) : Nat → Pool → Chain → Logged (Option (Pool × Chain))
  | 0, _, _ => throw (.malformed .expansionTooDeep)
  | allowance + 1, pool, chain =>
    scan table (expandWithin table allowance) chain.size pool chain chain.first

/-- Expands the macros in a chain. -/
def expand (table : Bindings Macro) (pool : Pool) (chain : Chain) :
    Logged (Option (Pool × Chain)) :=
  if table.isEmpty then pure (some (pool, chain))
  else expandWithin table (maxExpansionDepth + 1) pool chain

/-! ### Brackets -/

variable {pool pool' : Pool} {chain : Chain} {xs zs used inside behind : List Nat}
  {id opening close : Nat}

/-- The bracket that closes a group is found by the symbols that the nodes carry. -/
theorem closingFrom_succ (pool : Pool) (depth : Nat) (ids : List Nat) :
    closingFrom pool (depth + 1) ids = (@untilClose _ (labels pool) depth ids).map (·.2.1) := by
  induction ids generalizing depth with
  | nil => rfl
  | cons id ids ih =>
    unfold closingFrom untilClose
    rw [bracketRole_labels]
    cases bracketRole (pool.token id) with
    | neutral | opening =>
      simp only [ih, Option.map_map]
      rfl
    | closing =>
      cases depth with
      | zero => rfl
      | succ depth =>
        simp only [Nat.add_sub_cancel, ih, Option.map_map]
        rfl

/-- The bracket that closes a group opened at a node of a chain. -/
theorem matchingClose_eq (runs : Runs pool chain (xs ++ opening :: zs))
    (nodup : (xs ++ opening :: zs).Nodup) (opens : bracketRole (pool.token opening) = .opening) :
    matchingClose pool chain opening = (@untilClose _ (labels pool) 0 zs).map (·.2.1) := by
  have apart : ∀ id ∈ xs, (id != opening) = true := by
    intro id mem
    rw [bne_iff_ne]
    rintro rfl
    exact (List.nodup_append'.1 nodup).2.2 mem List.mem_cons_self
  have reach : (xs ++ opening :: zs).dropWhile (· != opening) = opening :: zs := by
    rw [List.dropWhile_append_of_pos apart, List.dropWhile_cons_of_neg]
    simp
  unfold matchingClose
  rw [runs.ids_eq, reach, ← closingFrom_succ, closingFrom, opens]

/-- Groups of nodes are groups of tokens. -/
theorem untilClose_tokens (pool : Pool) (depth : Nat) (ids : List Nat) :
    untilClose depth (ids.map pool.token) = (@untilClose _ (labels pool) depth ids).map
      fun cut => (cut.1.map pool.token, pool.token cut.2.1, cut.2.2.map pool.token) :=
  @untilClose_map _ _ _ (labels pool) pool.token ids (fun _ _ => rfl) depth

/-! ### Cutting out an invocation -/

/-- What stands between two brackets is set apart. -/
theorem runs_cutInside (runs : Runs pool chain (xs ++ opening :: inside ++ close :: zs))
    (nodup : (xs ++ opening :: inside ++ close :: zs).Nodup)
    (bound : ∀ k ∈ xs ++ opening :: inside ++ close :: zs, k < pool.nodes.size) :
    Runs (cutInside pool chain opening close).1 (cutInside pool chain opening close).2.1
      (xs ++ opening :: close :: zs) ∧
    Runs (cutInside pool chain opening close).1 (cutInside pool chain opening close).2.2 inside ∧
    pool.Relinks (xs ++ opening :: inside ++ close :: zs)
      (cutInside pool chain opening close).1 := by
  have after : pool.after opening = (inside ++ close :: zs).head? := by
    have links := runs.links
    rw [List.append_assoc] at links
    exact links.around.2
  have before : pool.before close = (xs ++ opening :: inside).getLast? := runs.links.around.1
  unfold cutInside
  rw [after, before]
  cases inside with
  | nil =>
    simp only [List.nil_append, List.head?_cons, List.getLast?_concat, if_true]
    rw [List.append_assoc] at runs
    exact ⟨runs, .empty pool, .refl pool _⟩
  | cons first rest =>
    have apart : first ≠ close := by
      rintro rfl
      grind
    obtain ⟨last, back⟩ : ∃ last, (first :: rest).getLast? = some last :=
      ⟨_, List.getLast?_eq_some_getLast (List.cons_ne_nil _ _)⟩
    have back' : (xs ++ opening :: first :: rest).getLast? = some last := by
      rw [List.getLast?_append_cons, List.getLast?_cons_cons, back]
    rw [back']
    simp only [List.cons_append, List.head?_cons, if_neg apart]
    have shift : xs ++ opening :: (first :: rest) ++ close :: zs =
        (xs ++ [opening]) ++ (first :: rest) ++ close :: zs := by simp
    rw [shift] at runs nodup bound ⊢
    have cut := runs_extract runs nodup bound rfl back
    rwa [← List.append_cons] at cut

/-- **Cutting out an invocation.**  What stands between the brackets is set apart. -/
theorem runs_cutCall (runs : Runs pool chain (xs ++ (id :: opening :: inside ++ [close]) ++ behind))
    (owns : pool.Owns (xs ++ (id :: opening :: inside ++ [close]) ++ behind ++ used)) :
    Runs (cutCall pool chain id opening close).1 (cutCall pool chain id opening close).2.1
      (xs ++ behind) ∧
    Runs (cutCall pool chain id opening close).1 (cutCall pool chain id opening close).2.2 inside ∧
    (cutCall pool chain id opening close).1.Owns (inside ++ (xs ++ behind ++ used)) ∧
    (∀ k ∈ inside ++ (xs ++ behind),
      (cutCall pool chain id opening close).1.token k = pool.token k) ∧
    ∀ k ∈ used, (cutCall pool chain id opening close).1.node k = pool.node k := by
  have nodup := owns.nodup
  obtain ⟨runs₁, call, changed⟩ := runs_extract runs nodup.of_append_left
    (fun k mem => owns.lt (List.mem_append_left _ mem)) rfl List.getLast?_concat
  unfold cutCall
  generalize extract pool chain id close = r at *
  have owns₁ := changed.owns owns
  obtain ⟨rest, apart, changed₁⟩ := @runs_cutInside _ _ [id] [] _ _ _ call
    (nodup.sublist (by simp))
    fun k mem => owns₁.lt (by grind)
  dsimp only
  generalize cutInside r.1 r.2.2 opening close = r₁ at *
  have runs₁ := runs₁.congr fun k mem => changed₁.node k (by grind)
  have owns₂ : r₁.1.Owns ([id, opening, close] ++ (inside ++ (xs ++ behind ++ used))) := by
    refine (changed₁.owns owns₁).perm (List.perm_iff_count.2 fun k => ?_)
    simp only [List.count_append, List.count_cons, List.count_nil]
    omega
  obtain ⟨-, -, owns₃, kept⟩ := runs_clear rest owns₂
  refine ⟨runs₁.congr fun k mem => kept k (by grind), apart.congr fun k mem => kept k (by grind),
    owns₃, fun k mem => ?_, fun k mem => ?_⟩
  · have same := congrArg Node.token (kept k (by grind))
    exact same.trans ((changed₁.token k).trans (changed.token k))
  · exact (kept k (by grind)).trans ((changed₁.node k (by grind)).trans (changed.node k (by grind)))

/-! ### Reading off the arguments -/

/-- Chains are read one after the other; giving up the nodes of one leaves the others alone. -/
theorem drain_spec {chains : List Chain} {idss : List (List Nat)}
    (runs : List.Forall₂ (Runs pool) chains idss)
    (same : ∀ id ∈ idss.flatten, pool'.node id = pool.node id)
    (owns : pool'.Owns (idss.flatten ++ used)) :
    (drain pool' chains).2 = idss.map (·.map pool.token) ∧ (drain pool' chains).1.Owns used ∧
      ∀ id ∈ used, (drain pool' chains).1.node id = pool'.node id := by
  induction runs generalizing pool' with
  | nil => exact ⟨rfl, owns, fun _ _ => rfl⟩
  | @cons chain ids chains idss one _ ih =>
    rw [List.flatten_cons, List.append_assoc] at owns
    rw [List.flatten_cons, List.forall_mem_append] at same
    have one := one.congr same.1
    obtain ⟨-, -, owns', kept⟩ := runs_clear one owns
    obtain ⟨contents, owns'', kept'⟩ := ih
      (fun id mem => (kept id (List.mem_append_left _ mem)).trans (same.2 id mem)) owns'
    refine ⟨?_, owns'', fun id mem => (kept' id mem).trans (kept id (List.mem_append_right _ mem))⟩
    show chain.tokens pool' :: (drain (clear pool' chain).1 chains).2 = _
    rw [contents, one.tokens_eq, List.map_cons, map_token_congr same.1]

/-- **The arguments that are read off** are the pieces of what stands between the brackets. -/
theorem takeArguments_spec {ids : List Nat} (runs : Runs pool chain ids)
    (owns : pool.Owns (ids ++ used)) :
    (takeArguments pool chain).2 = Macro.pieces (ids.map pool.token) ∧
      (takeArguments pool chain).1.Owns used ∧
      ∀ id ∈ used, (takeArguments pool chain).1.node id = pool.node id := by
  unfold takeArguments
  rw [runs.size]
  cases ids with
  | nil => exact ⟨rfl, owns, fun _ _ => rfl⟩
  | cons id ids =>
    have filled : (id :: ids).length ≠ 0 := Nat.succ_ne_zero _
    rw [if_neg filled]
    have parted := runs_split runs owns .comma
    obtain ⟨contents, owns', kept⟩ := drain_spec parted.runs (fun _ _ => rfl) parted.owns
    refine ⟨contents.trans parted.tokens, owns', fun k mem => ?_⟩
    exact (kept k mem).trans (parted.kept k mem)

/-! ### Outcomes -/

/-- The outcome on chains is that on lists, behind the tokens that have been passed: both fail
alike, or the chain holds these tokens and the list. -/
inductive Agrees (used : List Nat) (pool : Pool) (passed : List Token) :
    Result Error (List Event) (Option (Pool × Chain)) →
      Result Error (List Event) (List Token) → Prop
  | ok {pool' : Pool} {chain' : Chain} {ids' : List Nat} {expanded : List Token} {log : List Event}
      (edited : Edited used pool pool' chain' ids' (passed ++ expanded)) :
      Agrees used pool passed (.ok (some (pool', chain')) log) (.ok expanded log)
  | error {e : Error} {log : List Event} : Agrees used pool passed (.error e log) (.error e log)

namespace Agrees

variable {passed : List Token} {r : Result Error (List Event) (Option (Pool × Chain))}
  {r' : Result Error (List Event) (List Token)}

/-- The other chains are what they were before the preparations. -/
theorem since (h : Agrees used pool' passed r r')
    (kept : ∀ id ∈ used, pool'.node id = pool.node id) : Agrees used pool passed r r' := by
  cases h with
  | ok edited => exact .ok (edited.since rfl kept)
  | error => exact .error

/-- Tokens that have been passed stand in front of the list. -/
theorem prepend {x : List Token} {m : Logged (List Token)} {log : List Event}
    (h : Agrees used pool (passed ++ x) r (m log)) :
    Agrees used pool passed r ((do return x ++ (← m)) log) := by
  rw [bind_eq]
  generalize m log = r' at h
  cases h with
  | @ok _ _ ids' expanded _ edited =>
    rw [List.append_assoc] at edited
    exact .ok edited
  | error => exact .error

end Agrees

/-! ### Invocations -/

section Invoked

variable {table : Bindings Macro} {m : Macro}

/-- An invocation in a chain is the name of a macro, with an opening bracket behind it. -/
theorem invoked?_eq_some_iff (after : pool.after id = zs.head?) :
    invoked? table pool id = some (m, opening) ↔ ∃ name rest,
      pool.token id = .word name ∧ table.find? name = some m ∧
        zs = opening :: rest ∧ pool.token opening = .symbol .parenLeft := by
  unfold invoked?
  rw [after]
  generalize pool.token id = t
  cases t with
  | symbol | integer | double =>
    constructor
    · intro h
      cases h
    · rintro ⟨_, _, word, -⟩
      cases word
  | word name =>
    cases zs with
    | nil =>
      constructor
      · intro h
        cases h
      · rintro ⟨_, _, -, -, none, -⟩
        cases none
    | cons next rest =>
      simp only [List.head?_cons]
      by_cases opens : pool.token next = .symbol .parenLeft
      · rw [if_pos (Token.isSymbol_iff.2 opens)]
        simp only [Option.map_eq_some_iff, Prod.mk.injEq, Token.word.injEq, List.cons.injEq]
        constructor
        · rintro ⟨_, found, rfl, rfl⟩
          exact ⟨name, rest, rfl, found, ⟨rfl, rfl⟩, opens⟩
        · rintro ⟨_, _, rfl, found, ⟨rfl, -⟩, -⟩
          exact ⟨_, found, rfl, rfl⟩
      · rw [if_neg (mt Token.isSymbol_iff.1 opens)]
        constructor
        · intro h
          cases h
        · rintro ⟨_, _, -, -, same, opens'⟩
          cases same
          exact absurd opens' opens

/-- Where no macro is invoked in the chain, none is invoked in the list. -/
theorem noCall_of_invoked? (after : pool.after id = zs.head?)
    (none : invoked? table pool id = none) :
    Macro.NoCall table (pool.token id) (zs.map pool.token) := by
  intro name m rest word found start
  obtain ⟨opening, zs', rfl, opens, -⟩ := List.map_eq_cons_iff.1 start
  have some := (invoked?_eq_some_iff after).2 ⟨name, zs', word, found, rfl, opens⟩
  rw [none] at some
  cases some

end Invoked

variable {table : Bindings Macro} {pool : Pool} {chain : Chain} {m : Macro}
  {xs zs used inside behind : List Nat} {id opening close : Nat} {log : List Event}
  {expandInner : Pool → Chain → Logged (Option (Pool × Chain))}
  {expandInner' : List Token → Logged (List Token)}

/-! ### One invocation -/

/-- The nodes `xs` and `behind` stand around an invocation.  It has been replaced as in a list, or
both fail alike. -/
inductive Replaced (used : List Nat) (pool : Pool) (xs behind : List Nat) :
    Result Error (List Event) (Option (Pool × Chain)) →
      Result Error (List Event) (List Token) → Prop
  | ok {pool' : Pool} {chain' : Chain} {ids' : List Nat} {expanded : List Token} {log : List Event}
      (edited : Edited used pool pool' chain' (xs ++ ids' ++ behind)
        (xs.map pool.token ++ expanded ++ behind.map pool.token)) :
      Replaced used pool xs behind (.ok (some (pool', chain')) log) (.ok expanded log)
  | error {e : Error} {log : List Event} :
      Replaced used pool xs behind (.error e log) (.error e log)

/-- At the end of the chain, the scan is over. -/
theorem agrees_end {turns : Nat} (runs : Runs pool chain (xs ++ []))
    (owns : pool.Owns (xs ++ [] ++ used)) :
    Agrees used pool (xs.map pool.token) (scan table expandInner turns pool chain none log)
      (Macro.replaceCalls table expandInner' [] log) := by
  have ended : scan table expandInner turns pool chain none = pure (some (pool, chain)) := by
    cases turns <;> rfl
  have nothing : Macro.replaceCalls table expandInner' [] = pure [] := by
    rw [Macro.replaceCalls]
  rw [ended, nothing]
  rw [List.append_nil] at runs owns
  exact .ok ⟨runs, (List.append_nil _).symm, owns, fun _ _ => rfl⟩

section Scan

-- What an invocation stands for is expanded in a chain of its own as in a list.
variable (inner : ∀ {used : List Nat} {pool : Pool} {chain : Chain} {ids : List Nat},
  Runs pool chain ids → pool.Owns (ids ++ used) → ∀ log, Agrees used pool []
    (expandInner pool chain log) (expandInner' (ids.map pool.token) log))
include inner

/-- **An invocation is replaced in place** by what it stands for. -/
theorem replaced_replaceCall
    (runs : Runs pool chain (xs ++ (id :: opening :: inside ++ [close]) ++ behind))
    (owns : pool.Owns (xs ++ (id :: opening :: inside ++ [close]) ++ behind ++ used)) :
    Replaced used pool xs behind (replaceCall expandInner pool chain m id opening close log)
      (Macro.expandCall expandInner' m (inside.map pool.token) log) := by
  have before : pool.before id = xs.getLast? := (neighbours runs rfl rfl).1
  obtain ⟨rest, apart, owns₁, tokens, kept⟩ := runs_cutCall runs owns
  unfold replaceCall Macro.expandCall
  rw [before]
  generalize cutCall pool chain id opening close = r at *
  obtain ⟨pool₁, chain₁, inside₁⟩ := r
  obtain ⟨contents, owns₂, kept₂⟩ := takeArguments_spec apart owns₁
  dsimp only at *
  generalize takeArguments pool₁ inside₁ = r at *
  obtain ⟨pool₂, pieces⟩ := r
  rw [Macro.arguments_eq]
  have same : inside.map pool₁.token = inside.map pool.token :=
    List.map_congr_left fun k mem => tokens k (List.mem_append_left _ mem)
  rw [← same, ← contents]
  dsimp only at *
  cases m.accept pieces with
  | error cause => exact .error
  | ok args =>
    show Replaced used pool xs behind ((expandInner (ofTokens pool₂ (m.instantiate args)).1
      (ofTokens pool₂ (m.instantiate args)).2 >>= fun _ => _) _) (expandInner' _ _)
    obtain ⟨ids, built⟩ := runs_ofTokens owns₂ (m.instantiate args)
    generalize ofTokens pool₂ (m.instantiate args) = r₃ at *
    have outcome := inner built.runs built.owns (log ++ [.expanding m.name])
    rw [built.tokens] at outcome
    rw [bind_eq]
    generalize expandInner r₃.1 r₃.2 (log ++ [.expanding m.name]) = result at *
    generalize expandInner' (m.instantiate args) (log ++ [.expanding m.name]) = result' at *
    cases outcome with
    | error => exact .error
    | @ok pool₄ chain₄ ids₄ expanded _ edited =>
      -- the nodes around the invocation have been left alone since it was cut out
      have apart := edited.since rfl fun k mem => (built.kept k mem).trans (kept₂ k mem)
      rw [List.forall_mem_append, List.forall_mem_append] at tokens
      refine .ok ((apart.spliced rest).since ?_ kept)
      rw [List.map_congr_left tokens.2.1, List.map_congr_left tokens.2.2]
      rfl

/-! ### The scan -/

/-- **The loop ends**: it takes no more turns than there are nodes behind the cursor, and it gives
what the scan of their tokens gives.  The nodes `xs` have been passed. -/
theorem agrees_scan {turns : Nat} (enough : zs.length ≤ turns) (runs : Runs pool chain (xs ++ zs))
    (owns : pool.Owns (xs ++ zs ++ used)) :
    Agrees used pool (xs.map pool.token) (scan table expandInner turns pool chain zs.head? log)
      (Macro.replaceCalls table expandInner' (zs.map pool.token) log) := by
  induction turns generalizing pool chain xs zs log with
  | zero =>
    obtain rfl := List.length_eq_zero_iff.1 (Nat.le_zero.1 enough)
    exact agrees_end runs owns
  | succ turns ih =>
    cases zs with
    | nil => exact agrees_end runs owns
    | cons id rest =>
      have after : pool.after id = rest.head? := runs.links.around.2
      rw [List.map_cons, List.head?_cons, scan]
      cases invokes : invoked? table pool id with
      | none =>
        rw [Macro.replaceCalls_of_noCall (noCall_of_invoked? after invokes)]
        dsimp only
        rw [after]
        refine .prepend ?_
        rw [List.append_cons] at runs owns
        have more := @ih pool chain _ rest log (Nat.le_of_succ_le_succ enough) runs owns
        rwa [List.map_append] at more
      | some call =>
        obtain ⟨m, opening⟩ := call
        obtain ⟨name, rest, word, found, rfl, opens⟩ := (invoked?_eq_some_iff after).1 invokes
        have closes := @matchingClose_eq pool chain (xs ++ [id]) rest opening
          (by rwa [← List.append_cons])
          (by rw [← List.append_cons]; exact owns.nodup.of_append_left)
          (by rw [opens]; rfl)
        rw [List.map_cons, word, opens, Macro.replaceCalls_of_call found, untilClose_tokens]
        dsimp only
        rw [closes]
        cases cut : @untilClose _ (labels pool) 0 rest with
        | none => exact .error
        | some group =>
          obtain ⟨inside, close, behind⟩ := group
          obtain rfl := @append_of_untilClose _ (labels pool) _ _ _ _ _ cut
          have shift : xs ++ id :: opening :: (inside ++ close :: behind) =
              xs ++ (id :: opening :: inside ++ [close]) ++ behind := by simp
          rw [shift] at runs owns
          have next : pool.after close = behind.head? :=
            (neighbours runs rfl List.getLast?_concat).2.1
          have outcome := @replaced_replaceCall _ _ m _ _ _ _ _ _ _ log _ _ inner runs owns
          dsimp only [Option.map_some]
          rw [next, bind_eq, bind_eq]
          generalize replaceCall expandInner pool chain m id opening close log = result at *
          generalize Macro.expandCall expandInner' m (inside.map pool.token) log = result' at *
          cases outcome with
          | error => exact .error
          | @ok pool' chain' ids' expanded log' edited =>
            have tokens := edited.tokens
            rw [List.map_append] at tokens
            obtain ⟨passed, rest⟩ :=
              List.append_inj' tokens (by rw [List.length_map, List.length_map])
            have fewer : behind.length ≤ turns := by
              simp only [List.length_cons, List.length_append] at enough
              omega
            have more := @ih pool' chain' _ behind log' fewer edited.runs edited.owns
            rw [passed, rest] at more
            exact (more.since edited.kept).prepend

end Scan

/-! ### Expansion -/

variable {ids : List Nat}

theorem agrees_expandWithin (table : Bindings Macro) (allowance : Nat) (runs : Runs pool chain ids)
    (owns : pool.Owns (ids ++ used)) (log : List Event) :
    Agrees used pool [] (expandWithin table allowance pool chain log)
      (Macro.expandWithin table allowance (ids.map pool.token) log) := by
  induction allowance generalizing used pool chain ids log with
  | zero => exact .error
  | succ allowance ih =>
    rw [expandWithin, Macro.expandWithin, runs.first, runs.size]
    exact @agrees_scan _ pool chain [] ids used log _ _ ih _ (Nat.le_refl _) runs owns

/-- **Expansion in place ends, and gives what expansion gives**: it fails alike, or the chain holds
the expanded list, with all nodes that are in use owned by it or by the other chains, which have
been left alone. -/
theorem agrees_expand (table : Bindings Macro) (runs : Runs pool chain ids)
    (owns : pool.Owns (ids ++ used)) (log : List Event) :
    Agrees used pool [] (expand table pool chain log)
      (Macro.expand table (chain.tokens pool) log) := by
  rw [runs.tokens_eq, expand, Macro.expand]
  by_cases empty : table.isEmpty
  · rw [if_pos empty, if_pos empty]
    exact .ok ⟨runs, rfl, owns, fun _ _ => rfl⟩
  · rw [if_neg empty, if_neg empty]
    exact agrees_expandWithin table _ runs owns log

end Chain

end MatrixCalc
