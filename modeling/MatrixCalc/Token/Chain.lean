import MatrixCalc.Token.Group

/-!
# Chains of tokens

Token lists that are cut, joined and edited in place, without copying: the nodes of all lists lie
in one `Pool`, and a `Chain` is the pair of ends of a doubly linked run of nodes.  Nodes that are
given up go on a free list and are handed out again.

The view of a chain is the list `Chain.tokens` of what its nodes hold, front to back.
-/

namespace MatrixCalc

/-- A node of a chain. -/
structure Node where
  /-- What the node holds. -/
  token : Token
  /-- The node in front of it. -/
  before : Option Nat
  /-- The node behind it. -/
  after : Option Nat

/-- The nodes of all chains. -/
structure Pool where
  /-- The nodes, by number. -/
  nodes : Array Node := #[]
  /-- The numbers of the nodes in no chain; the first is handed out next. -/
  free : List Nat := []

/-- A run of linked nodes. -/
structure Chain where
  /-- The front node. -/
  first : Option Nat := none
  /-- The back node. -/
  last : Option Nat := none
  /-- The number of nodes. -/
  size : Nat := 0

namespace Pool

/-- What a node holds when it is in no chain. -/
def vacant : Node := ⟨.symbol .comma, none, none⟩

/-- A node by its number. -/
def node (pool : Pool) (id : Nat) : Node := pool.nodes.getD id vacant

/-- The node in front of a node. -/
def before (pool : Pool) (id : Nat) : Option Nat := (pool.node id).before

/-- The node behind a node. -/
def after (pool : Pool) (id : Nat) : Option Nat := (pool.node id).after

/-- What a node holds. -/
def token (pool : Pool) (id : Nat) : Token := (pool.node id).token

/-- Overwrites a node. -/
def put (pool : Pool) (id : Nat) (node : Node) : Pool :=
  { pool with nodes := pool.nodes.setIfInBounds id node }

/-- Links a node to the one in front of it. -/
def setBefore (pool : Pool) (id : Nat) (before : Option Nat) : Pool :=
  pool.put id { pool.node id with before }

/-- Links a node to the one behind it. -/
def setAfter (pool : Pool) (id : Nat) (after : Option Nat) : Pool :=
  pool.put id { pool.node id with after }

/-- Overwrites what a node holds; its links stay. -/
def replace (pool : Pool) (id : Nat) (token : Token) : Pool :=
  pool.put id { pool.node id with token }

/-- A node for a token: the one given up last, or a new one. -/
def allocate (pool : Pool) (token : Token) : Pool × Nat :=
  match pool.free with
  | id :: free => ({ pool with free }.put id ⟨token, none, none⟩, id)
  | [] => ({ pool with nodes := pool.nodes.push ⟨token, none, none⟩ }, pool.nodes.size)

/-- Gives a node up. -/
def release (pool : Pool) (id : Nat) : Pool :=
  let pool := pool.put id vacant
  { pool with free := id :: pool.free }

/-- Up to `steps` nodes, each behind the one before it, from the given node on. -/
def walk (pool : Pool) : Nat → Option Nat → List Nat
  | 0, _ => []
  | _, none => []
  | steps + 1, some id => id :: pool.walk steps (pool.after id)

end Pool

namespace Chain

/-- The nodes of a chain, front to back. -/
def ids (chain : Chain) (pool : Pool) : List Nat := pool.walk chain.size chain.first

/-- What the nodes of a chain hold, front to back. -/
def tokens (chain : Chain) (pool : Pool) : List Token := (chain.ids pool).map pool.token

/-- Links a node behind another one, or makes it the front. -/
def linkAfter (pool : Pool) (chain : Chain) (position : Option Nat) (id : Option Nat) :
    Pool × Chain :=
  match position with
  | some position => (pool.setAfter position id, chain)
  | none => (pool, { chain with first := id })

/-- Links a node in front of another one, or makes it the back. -/
def linkBefore (pool : Pool) (chain : Chain) (position : Option Nat) (id : Option Nat) :
    Pool × Chain :=
  match position with
  | some position => (pool.setBefore position id, chain)
  | none => (pool, { chain with last := id })

/-- Appends a token. -/
def push (pool : Pool) (chain : Chain) (token : Token) : Pool × Chain :=
  let (pool, id) := pool.allocate token
  let (pool, chain) := linkAfter pool chain chain.last (some id)
  (pool.setBefore id chain.last, { chain with last := some id, size := chain.size + 1 })

/-- A chain of the given tokens. -/
def ofTokens (pool : Pool) (tokens : List Token) : Pool × Chain :=
  tokens.foldl (fun (pool, chain) token => push pool chain token) (pool, {})

/-- Moves all nodes of `other` behind a node of `chain`, or to its front, and leaves `other`
empty. -/
def spliceAfter (pool : Pool) (chain : Chain) (position : Option Nat) (other : Chain) :
    Pool × Chain × Chain :=
  match other.first, other.last with
  | some first, some last =>
    let after := match position with
      | some position => pool.after position
      | none => chain.first
    let pool := pool.setBefore first position
    let (pool, chain) := linkAfter pool chain position (some first)
    let pool := pool.setAfter last after
    let (pool, chain) := linkBefore pool chain after (some last)
    (pool, { chain with size := chain.size + other.size }, {})
  | _, _ => (pool, chain, other)

/-- Inserts a token behind a node, or at the front. -/
def insertAfter (pool : Pool) (chain : Chain) (position : Option Nat) (token : Token) :
    Pool × Chain :=
  let (pool, id) := pool.allocate token
  let (pool, chain, _) := spliceAfter pool chain position ⟨some id, some id, 1⟩
  (pool, chain)

/-- Takes a node out of a chain and gives it up; the answer holds its token. -/
def remove (pool : Pool) (chain : Chain) (id : Nat) : Pool × Chain × Token :=
  let token := pool.token id
  let before := pool.before id
  let after := pool.after id
  let (pool, chain) := linkAfter pool chain before after
  let (pool, chain) := linkBefore pool chain after before
  (pool.release id, { chain with size := chain.size - 1 }, token)

/-- Cuts the nodes from `first` to `last` out of a chain. -/
def extract (pool : Pool) (chain : Chain) (first last : Nat) : Pool × Chain × Chain :=
  let before := pool.before first
  let after := pool.after last
  let size := ((pool.walk chain.size (some first)).takeWhile (· != last)).length + 1
  let (pool, chain) := linkAfter pool chain before after
  let (pool, chain) := linkBefore pool chain after before
  let pool := (pool.setBefore first none).setAfter last none
  (pool, { chain with size := chain.size - size }, ⟨some first, some last, size⟩)

/-- Gives up all nodes of a chain. -/
def clear (pool : Pool) (chain : Chain) : Pool × Chain :=
  ((chain.ids pool).foldl Pool.release pool, {})

/-- One piece of a split: the nodes from `start` to the one in front of the separator `id`. -/
def cutPiece (pool : Pool) (chain : Chain) (start : Option Nat) (id : Nat) :
    Pool × Chain × Chain :=
  match start, pool.before id with
  | some first, some last =>
    if first = id then (pool, chain, {}) else extract pool chain first last
  | _, _ => (pool, chain, {})

/-- Splits the rest of a chain, whose nodes are given, at the separators that stand in no group;
the current piece begins at `start`. -/
def splitFrom (separator : Symbol) (pool : Pool) (chain : Chain) (depth : Nat)
    (start : Option Nat) : List Nat → Pool × List Chain
  | [] => (pool, [chain])
  | id :: ids =>
    match bracketRole (pool.token id) with
    | .opening => splitFrom separator pool chain (depth + 1) start ids
    | .closing => splitFrom separator pool chain (depth - 1) start ids
    | .neutral =>
      if isSymbol separator (pool.token id) && depth == 0 then
        let next := pool.after id
        let (pool, chain, piece) := cutPiece pool chain start id
        let (pool, chain, _) := remove pool chain id
        let (pool, pieces) := splitFrom separator pool chain depth next ids
        (pool, piece :: pieces)
      else splitFrom separator pool chain depth start ids

/-- Splits a chain at the separators that stand in no group.  The separators are given up, empty
pieces are kept. -/
def split (pool : Pool) (chain : Chain) (separator : Symbol) : Pool × List Chain :=
  splitFrom separator pool chain 0 chain.first (chain.ids pool)

/-- The bracket that closes a group, given the nodes from its opening bracket on. -/
def closingFrom (pool : Pool) : Nat → List Nat → Option Nat
  | _, [] => none
  | depth, id :: ids =>
    match bracketRole (pool.token id) with
    | .opening => closingFrom pool (depth + 1) ids
    | .closing => if depth ≤ 1 then some id else closingFrom pool (depth - 1) ids
    | .neutral => closingFrom pool depth ids

/-- The bracket that closes the group opened at a node. -/
def matchingClose (pool : Pool) (chain : Chain) (id : Nat) : Option Nat :=
  closingFrom pool 0 ((chain.ids pool).dropWhile (· != id))

end Chain

end MatrixCalc
