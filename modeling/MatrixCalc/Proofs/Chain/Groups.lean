import MatrixCalc.Proofs.Chain.Desk

/-!
# Groups in place

Groups are resolved in a chain: what stands between two brackets is cut out and becomes a chain of
its own, which is split and used up, and the value takes the place of the group.

* `Group.form`, `Group.resolve_eq` : what a group is depends on its bracket and on what stands in
  front of it.
* `Desk.lists_takeInside`, `Desk.at_collapse`, `Desk.deals_split` : cutting out, closing the gap,
  and splitting.
* `InPlace.groupStep` : a step of the loop that resolves groups.
* `Resolves` : a computation uses up a chain, and gives what another one gives for its list.
* `InPlace.stepsLike_group` : **groups are resolved in place** as they are in a list.
-/

namespace MatrixCalc

open Pool Chain

/-! ### Forms of groups -/

namespace Group

/-- What a group is. -/
inductive Form where
  /-- A matrix literal. -/
  | literal
  /-- The arguments of a function. -/
  | call (f : Builtin)
  /-- An address in a matrix. -/
  | address (m : Cell .matrix)
  /-- Brackets that only group. -/
  | plain

/-- What a group is, by its bracket and by what stands in front of it. -/
def form : Symbol → Option Item → Form
  | .bracketLeft, _ => .literal
  | _, some (.function f) => .call f
  | _, some (.value ⟨.matrix, m⟩) => .address m
  | _, _ => .plain

/-- What stands in front of the group belongs to it. -/
def Form.takesFront : Form → Bool
  | call _ | address _ => true
  | literal | plain => false

/-- Emits a call. -/
def emitCall (f : Builtin) (args : List Variable) : Build (Option Variable) := do
  return some (← Build.emitRecipe (Recipe.ofCall (← get).constant f args))

/-- Emits the extraction of what is at an address. -/
def emitExtract (m : Cell .matrix) (address : Address) : Build (Option Variable) := do
  return some (← Build.emitRecipe (.ok (Recipe.ofAddress m address)))

/-- Puts the elements of a row together. -/
def closeRow (elements : List (List Variable)) : Build (List Variable) := do
  Build.ofExcept (checkClosed (← get).store elements.flatten)
  return elements.flatten

/-- Emits a literal. -/
def emitLiteral (rows : Literal) : Build (Option Variable) := do
  let op ← Build.place (.ok ⟨"matrixConstructor", .literal rows⟩)
  let draft ← get
  Build.ofExcept (rows.checkStatic draft.store draft.constant)
  return some (← Build.emit op)

/-- The index that a value is. -/
def toIndex (v : Option Variable) : Build Index := do
  Build.ofExcept (Index.ofVariable (← Build.ofOption .emptyIndex v))

/-- The value of a group. -/
def Form.value (block : Resolver) (inside : List Item) : Form → Build (Option Variable)
  | literal => literalRows block inside >>= emitLiteral
  | call f => arguments block f inside >>= emitCall f
  | address m => Group.address block inside >>= emitExtract m
  | plain => single block inside

/-- The value of a group takes the place of the group. -/
theorem resolve_eq (block : Resolver) (opening : Symbol) (done inside : List Item) :
    resolve block opening done inside = do
      let v ← (form opening done.head?).value block inside
      return (v.map Item.value).toList ++
        if (form opening done.head?).takesFront then done.tail else done := by
  unfold resolve
  split
  · simp [form, Form.value, Form.takesFront, literal, emitLiteral]
  · simp [form, Form.value, Form.takesFront, call, emitCall]
  · simp [form, Form.value, Form.takesFront, emitExtract]
  · rename_i bracket function address
    have plain : form opening done.head? = .plain := by
      unfold form
      split
      · exact absurd rfl bracket
      · rename_i f _ front
        obtain ⟨rest, eq⟩ := List.head?_eq_some_iff.1 front
        exact absurd eq (function f rest)
      · rename_i m _ front
        obtain ⟨rest, eq⟩ := List.head?_eq_some_iff.1 front
        exact absurd eq (address m rest)
      · rfl
    rw [plain]
    refine bind_congr fun v => ?_
    cases v <;> rfl

end Group

/-! ### Chains that are used up -/

namespace Desk

variable {base desk desk' : Desk} {used ids xs ys zs inside : List Nat} {chain : Chain}
  {opening close first last : Nat} {items : List Item}

/-- A chain has been used up: its nodes are free, and nothing has happened to the nodes `used`. -/
structure Spent (base : Desk) (used : List Nat) (desk : Desk) : Prop where
  /-- The other nodes are owned or free. -/
  owns : desk.pool.Owns used
  /-- Nothing has happened to them. -/
  keeps : base.Keeps used desk

/-- A chain of its own is still there when another one has been used up. -/
theorem Spent.holds (h : Spent desk (ids ++ used) desk') (runs : Runs desk.pool chain ids)
    (symbols : ∀ id ∈ ids, symbol? (desk.pool.token id) = symbol? (desk.item id)) :
    desk'.Holds used chain ids where
  runs := runs.congr fun id mem => (h.keeps id (List.mem_append_left _ mem)).1
  owns := h.owns
  symbols id mem := h.keeps.symbol_eq (List.mem_append_left _ mem) (symbols id mem)

/-- Gives up the nodes of a chain. -/
def clear (chain : Chain) (desk : Desk) : Desk :=
  { desk with pool := (Chain.clear desk.pool chain).1 }

theorem Lists.spent (h : Lists base used chain items desk) :
    Spent base used (desk.clear chain) := by
  obtain ⟨ids, holds, keeps, -⟩ := h
  have edited := runs_clear holds.runs holds.owns
  exact ⟨edited.owns, keeps.trans fun id mem => ⟨edited.kept id mem, rfl⟩⟩

/-! ### Cutting out -/

/-- Sets apart what stands between two brackets. -/
def takeInside (chain : Chain) (opening close : Nat) (desk : Desk) : (Chain × Chain) × Desk :=
  let (pool, chain, inside) := cutInside desk.pool chain opening close
  ((chain, inside), { desk with pool })

/-- What stands between the brackets is a chain of its own; when it has been used up, the brackets
stand side by side. -/
theorem lists_takeInside (h : desk.Holds used chain (xs ++ opening :: inside ++ close :: zs)) :
    Lists (desk.takeInside chain opening close).2 (xs ++ opening :: close :: zs ++ used)
      (desk.takeInside chain opening close).1.2 (inside.map desk.item)
      (desk.takeInside chain opening close).2 ∧
    ∀ {desk' : Desk}, Spent (desk.takeInside chain opening close).2
        (xs ++ opening :: close :: zs ++ used) desk' →
      desk'.Holds used (desk.takeInside chain opening close).1.1 (xs ++ opening :: close :: zs) ∧
        desk.Keeps used desk' ∧
        ∀ id ∈ xs ++ opening :: close :: zs, desk'.item id = desk.item id := by
  obtain ⟨runs, owns, symbols⟩ := h
  have apart := (List.nodup_append'.1 owns.nodup).2.2
  obtain ⟨outer, inner, changed⟩ := runs_cutInside runs owns.nodup.of_append_left
    fun id mem => owns.lt (List.mem_append_left _ mem)
  have owns' : (cutInside desk.pool chain opening close).1.Owns
      (inside ++ (xs ++ opening :: close :: zs ++ used)) := (changed.owns owns).perm (by grind)
  have same : ∀ id ∈ xs ++ opening :: inside ++ close :: zs,
      symbol? ((cutInside desk.pool chain opening close).1.token id) = symbol? (desk.item id) :=
    fun id mem => (congrArg symbol? (changed.token id)).trans (symbols id mem)
  refine ⟨⟨inside, ⟨inner, owns', fun id mem => same id (by grind)⟩, .refl _ _, rfl⟩,
    fun spent => ⟨?_, fun id mem => ?_, fun id mem => ?_⟩⟩
  · exact spent.holds outer fun id mem => same id (by grind)
  · obtain ⟨node, item⟩ := spent.keeps id (List.mem_append_right _ mem)
    exact ⟨node.trans (changed.node id fun mem' => apart mem' mem), item⟩
  · exact (spent.keeps id (List.mem_append_left _ mem)).2

/-- Puts a variable, or nothing, in the place of the nodes from one to another. -/
def collapse (chain : Chain) (first last : Nat) (v : Option Variable) (desk : Desk) :
    Chain × Desk :=
  let (pool, rest, span) := extract desk.pool chain first last
  let cut : Desk := { desk with pool := (Chain.clear pool span).1 }
  match v with
  | none => (rest, cut)
  | some v => cut.insertAfter rest (desk.pool.before first) v

/-- Nodes that are given up. -/
theorem holds_cut (h : desk.Holds used chain (xs ++ ys ++ zs)) (front : ys.head? = some first)
    (back : ys.getLast? = some last) :
    Holds { desk with pool := (Chain.clear (extract desk.pool chain first last).1
        (extract desk.pool chain first last).2.2).1 } used
      (extract desk.pool chain first last).2.1 (xs ++ zs) ∧
    desk.Keeps used { desk with pool := (Chain.clear (extract desk.pool chain first last).1
        (extract desk.pool chain first last).2.2).1 } := by
  obtain ⟨runs, owns, symbols⟩ := h
  have apart := (List.nodup_append'.1 owns.nodup).2.2
  obtain ⟨rest, span, changed⟩ := runs_extract runs owns.nodup.of_append_left
    (fun id mem => owns.lt (List.mem_append_left _ mem)) front back
  generalize extract desk.pool chain first last = r at *
  have owns' : r.1.Owns (ys ++ (xs ++ zs ++ used)) := (changed.owns owns).perm (by grind)
  obtain ⟨-, -, owns, kept⟩ := runs_clear span owns'
  generalize (Chain.clear r.1 r.2.2).1 = pool at *
  refine ⟨⟨rest.congr fun id mem => kept id (List.mem_append_left _ mem), owns,
    fun id mem => ?_⟩, fun id mem => ⟨?_, rfl⟩⟩
  · have token := congrArg Node.token (kept id (List.mem_append_left _ mem))
    exact (congrArg symbol? (token.trans (changed.token id))).trans (symbols id (by grind))
  · exact (kept id (List.mem_append_right _ mem)).trans
      (changed.node id fun mem' => apart mem' mem)

/-- **A variable, or nothing, takes the place of some nodes**, and the cursor stands behind it. -/
theorem at_collapse (h : desk.Holds used chain (xs ++ ys ++ zs)) (keeps : base.Keeps used desk)
    (front : ys.head? = some first) (back : ys.getLast? = some last) (v : Option Variable) :
    At base used (desk.collapse chain first last v).1 zs.head?
      ((v.map Item.value).toList ++ (xs.map desk.item).reverse) (zs.map desk.item)
      (desk.collapse chain first last v).2 := by
  obtain ⟨holds, kept⟩ := holds_cut h front back
  cases v with
  | none => exact ⟨xs, zs, holds, keeps.trans kept, rfl, rfl, rfl⟩
  | some v =>
    have before : desk.pool.before first = xs.getLast? := (neighbours h.runs front back).1
    obtain ⟨id, holds', kept', self, left, right⟩ := holds_insertAfter holds v
    unfold collapse
    dsimp only
    rw [before]
    refine ⟨xs ++ [id], zs, ?_, keeps.trans (kept.trans kept'), rfl, ?_, right⟩
    · rw [← List.append_cons]
      exact holds'
    · rw [List.map_append, List.reverse_append, left, List.map_singleton, self]
      rfl

/-- A value takes the place of a group, and of what stands in front of it if that belongs to it. -/
theorem at_collapse_group (h : desk.Holds used chain (xs ++ opening :: close :: zs))
    (keeps : base.Keeps used desk) (takes : Bool) (front : takes = true → xs ≠ [])
    (v : Option Variable) : At base used
      (desk.collapse chain (if takes then xs.getLast?.getD opening else opening) close v).1 zs.head?
      ((v.map Item.value).toList ++
        if takes then (xs.map desk.item).reverse.tail else (xs.map desk.item).reverse)
      (zs.map desk.item)
      (desk.collapse chain (if takes then xs.getLast?.getD opening else opening) close v).2 := by
  cases takes with
  | false =>
    have shift : xs ++ opening :: close :: zs = xs ++ [opening, close] ++ zs := by simp
    rw [shift] at h
    exact at_collapse h keeps rfl rfl v
  | true =>
    rcases List.eq_nil_or_concat xs with rfl | ⟨init, last, rfl⟩
    · exact absurd rfl (front rfl)
    · rw [List.concat_eq_append] at *
      have shift : init ++ [last] ++ opening :: close :: zs =
          init ++ [last, opening, close] ++ zs := by simp
      rw [shift] at h
      simp only [if_true, List.getLast?_concat, Option.getD_some, List.map_append,
        List.reverse_append, List.map_singleton, List.reverse_singleton, List.singleton_append,
        List.tail_cons]
      exact at_collapse h keeps rfl rfl v

/-! ### Pieces -/

/-- Chains are where they were as long as nothing happens to their nodes. -/
theorem forall₂_runs_congr {pool pool' : Pool} {chains : List Chain} {idss : List (List Nat)}
    (h : List.Forall₂ (Runs pool) chains idss)
    (same : ∀ id ∈ idss.flatten, pool'.node id = pool.node id) :
    List.Forall₂ (Runs pool') chains idss := by
  induction h with
  | nil => exact .nil
  | cons one more ih =>
    rw [List.flatten_cons, List.forall_mem_append] at same
    exact .cons (one.congr same.1) (ih same.2)

/-- The chains hold the pieces, and nothing has happened to the nodes `used` since `base`. -/
def Deals (base : Desk) (used : List Nat) (chains : List Chain) (pieces : List (List Item))
    (desk : Desk) : Prop :=
  ∃ idss, List.Forall₂ (Runs desk.pool) chains idss ∧ desk.pool.Owns (idss.flatten ++ used) ∧
    (∀ id ∈ idss.flatten, symbol? (desk.pool.token id) = symbol? (desk.item id)) ∧
    base.Keeps used desk ∧ idss.map (·.map desk.item) = pieces

/-- Splits a chain. -/
def split (separator : Symbol) (chain : Chain) (desk : Desk) : List Chain × Desk :=
  let (pool, chains) := Chain.split desk.pool chain separator
  (chains, { desk with pool })

/-- **A chain of items is split where its list is.** -/
theorem deals_split (h : Lists base used chain items desk) (separator : Symbol) :
    Deals base used (desk.split separator chain).1 (splitTop separator 0 items)
      (desk.split separator chain).2 := by
  obtain ⟨ids, holds, keeps, rfl⟩ := h
  have parted := runs_split holds.runs holds.owns separator
  have cut := @splitTop_map _ _ _ (labels desk.pool) desk.item ids
    (fun id mem => (holds.symbols id mem).symm) separator 0
  have inside : ∀ id ∈ (@splitTop _ (labels desk.pool) separator 0 ids).flatten, id ∈ ids :=
    fun id mem => (@flatten_splitTop_sublist _ (labels desk.pool) separator 0 ids).mem mem
  refine ⟨_, parted.runs, parted.owns, fun id mem => ?_,
    keeps.trans fun id mem => ⟨parted.kept id mem, rfl⟩, cut.symm⟩
  obtain ⟨piece, member, mem'⟩ := List.mem_flatten.1 mem
  exact (congrArg symbol? (parted.token piece member id mem')).trans
    (holds.symbols id (inside id mem))

theorem Deals.nil_spent {pieces : List (List Item)} (h : Deals base used [] pieces desk) :
    pieces = [] ∧ Spent base used desk := by
  obtain ⟨idss, ⟨⟩, owns, -, keeps, rfl⟩ := h
  exact ⟨rfl, owns, keeps⟩

/-- The first piece is a chain of its own; the others are still there when it has been used up. -/
theorem Deals.uncons {chains : List Chain} {pieces : List (List Item)}
    (h : Deals base used (chain :: chains) pieces desk) : ∃ piece pieces' others,
      pieces = piece :: pieces' ∧ Lists desk others chain piece desk ∧
      ∀ {desk' : Desk}, Spent desk others desk' → Deals base used chains pieces' desk' := by
  obtain ⟨idss, runs, owns, symbols, keeps, rfl⟩ := h
  cases runs with
  | @cons _ ids _ idss one more =>
    rw [List.flatten_cons, List.append_assoc] at owns
    rw [List.flatten_cons, List.forall_mem_append] at symbols
    refine ⟨_, _, idss.flatten ++ used, rfl, ⟨ids, ⟨one, owns, symbols.1⟩, .refl _ _, rfl⟩,
      fun {desk'} spent => ?_⟩
    have kept : ∀ row ∈ idss, ∀ id ∈ row,
        desk'.pool.node id = desk.pool.node id ∧ desk'.item id = desk.item id :=
      fun row member id mem => spent.keeps id
        (List.mem_append_left _ (List.mem_flatten_of_mem member mem))
    refine ⟨idss, ?_, spent.owns, fun id mem => ?_,
      keeps.trans fun id mem => spent.keeps id (List.mem_append_right _ mem), ?_⟩
    · exact forall₂_runs_congr more fun id mem => (spent.keeps id (List.mem_append_left _ mem)).1
    · exact spent.keeps.symbol_eq (List.mem_append_left _ mem) (symbols.2 id mem)
    · exact List.map_congr_left fun row member =>
        List.map_congr_left fun id mem => (kept row member id mem).2

end Desk

open InPlace

/-! ### Resolving pieces -/

/-- A computation uses a chain up, and does what another one does with the list of the chain. -/
structure Resolves {α : Type} (f' : Chain → InPlace α) (f : List Item → Build α) : Prop where
  /-- The answers are the same, and the nodes of the chain are free. -/
  mirrors : ∀ {base : Desk} {used : List Nat} {chain : Chain} {items : List Item} {desk : Desk},
    Desk.Lists base used chain items desk → Mirrors desk (f' chain) (f items) fun a b desk' =>
      a = b ∧ Desk.Spent base used desk'

namespace InPlace

/-- Splits a chain and resolves its pieces, if there is anything in it. -/
def pieces {α : Type} (separator : Symbol) (f' : Chain → InPlace α) (chain : Chain) :
    InPlace (List α) := do
  let chains ← modifyGet (Desk.split separator chain)
  chains.mapM f'

/-- Resolves the pieces of a chain, unless it is empty. -/
def piecesOrNone {α : Type} (separator : Symbol) (f' : Chain → InPlace α) (chain : Chain) :
    InPlace (List α) :=
  if chain.size = 0 then pure [] else pieces separator f' chain

/-- Resolves a chain only if there is anything in it. -/
def filled {α : Type} (cause : Malformed) (f' : Chain → InPlace α) (chain : Chain) : InPlace α := do
  Build.require (chain.size != 0) cause
  f' chain

section Groups

variable (block' : Chain → InPlace (List Variable))

/-- The value of a chain. -/
def single (chain : Chain) : InPlace (Option Variable) := do
  Range.join (← block' chain)

/-- The value of an argument. -/
def argument (f : Builtin) : Chain → InPlace Variable := filled (.emptyArgument f) fun chain => do
  Build.ofOption (.emptyArgument f) (← single block' chain)

/-- The value of an index. -/
def index (chain : Chain) : InPlace Index := do
  Group.toIndex (← single block' chain)

/-- The blocks of a row of a literal. -/
def literalRow : Chain → InPlace (List Variable) := filled .emptyRow fun chain => do
  Group.closeRow (← pieces .comma (filled .emptyElement block') chain)

/-- The address between a pair of brackets. -/
def address : Chain → InPlace Address := filled .emptyIndex fun chain => do
  Build.ofExcept (Address.ofIndices (← pieces .comma (index block') chain))

/-- The value of a group. -/
def value (chain : Chain) : Group.Form → InPlace (Option Variable)
  | .literal => do Group.emitLiteral (← piecesOrNone .semicolon (literalRow block') chain)
  | .call f => do Group.emitCall f (← piecesOrNone .comma (argument block' f) chain)
  | .address m => do Group.emitExtract m (← address block' chain)
  | .plain => single block' chain

/-- Resolves the group between two brackets.  The cursor goes on at the node that stood behind the
group before. -/
def resolve (opening : Symbol) (chain : Chain) (id close : Nat) :
    InPlace (Chain × Option Nat) := do
  let desk ← get
  let before := desk.pool.before id
  let form := Group.form opening (before.map desk.item)
  let (chain, inside) ← modifyGet (Desk.takeInside chain id close)
  let v ← value block' inside form
  let first := if form.takesFront then before.getD id else id
  return (← modifyGet (Desk.collapse chain first close v), desk.pool.after close)

/-- A step of the loop that resolves groups. -/
def groupStep (chain : Chain) (id : Nat) : InPlace (Chain × Option Nat) := do
  let desk ← get
  match symbol? (desk.item id), bracketRole (desk.item id) with
  | some opening, .opening =>
    match matchingClose desk.pool chain id with
    | none => Build.fail (.unterminated opening)
    | some close => resolve block' opening chain id close
  | some closing, .closing => Build.fail (.unmatchedClosing closing)
  | _, _ => return (chain, desk.pool.after id)

end Groups

end InPlace

namespace Resolves

variable {α β : Type} {f' : Chain → InPlace α} {f : List Item → Build α}

/-- What is done with the answer does not concern the nodes. -/
theorem andThen (h : Resolves f' f) (g : α → Build β) :
    Resolves (fun chain => f' chain >>= fun a => liftM (g a)) (fun items => f items >>= g) := by
  refine ⟨fun {base used chain items desk} lists => ?_⟩
  refine (h.mirrors lists).bind fun a b desk' same => ?_
  obtain ⟨rfl, spent⟩ := same
  rw [← bind_pure (liftM (g a))]
  exact mirrors_lift_last _ fun _ => mirrors_pure ⟨rfl, spent⟩

theorem isEmpty_eq {base desk : Desk} {used : List Nat} {chain : Chain} {items : List Item}
    (lists : Desk.Lists base used chain items desk) : (chain.size != 0) = !items.isEmpty := by
  rw [lists.size_eq]
  cases items <;> rfl

theorem filled (h : Resolves f' f) (cause : Malformed) : Resolves (InPlace.filled cause f')
    (fun items => Build.require (!items.isEmpty) cause >>= fun _ => f items) := by
  refine ⟨fun {base used chain items desk} lists => ?_⟩
  unfold InPlace.filled
  rw [isEmpty_eq lists]
  exact mirrors_lift_bind _ fun _ => h.mirrors lists

/-- Pieces are resolved one after the other; each leaves the others alone. -/
theorem mirrors_mapM (h : Resolves f' f) {base desk : Desk} {used : List Nat} {chains : List Chain}
    {pieces : List (List Item)} (deals : Desk.Deals base used chains pieces desk) :
    Mirrors desk (chains.mapM f') (pieces.mapM f) fun a b desk' =>
      a = b ∧ Desk.Spent base used desk' := by
  induction chains generalizing desk pieces with
  | nil =>
    obtain ⟨rfl, spent⟩ := deals.nil_spent
    exact mirrors_pure ⟨rfl, spent⟩
  | cons chain chains ih =>
    obtain ⟨piece, pieces, others, rfl, lists, rest⟩ := deals.uncons
    rw [List.mapM_cons, List.mapM_cons]
    refine (h.mirrors lists).bind fun a b desk' same => ?_
    obtain ⟨rfl, spent⟩ := same
    refine (ih (rest spent)).bind fun as bs desk'' same => ?_
    obtain ⟨rfl, spent⟩ := same
    exact mirrors_pure ⟨rfl, spent⟩

theorem pieces (h : Resolves f' f) (separator : Symbol) : Resolves (InPlace.pieces separator f')
    (fun items => (splitTop separator 0 items).mapM f) := by
  refine ⟨fun {base used chain items desk} lists => ?_⟩
  exact mirrors_edit_bind _ (h.mirrors_mapM (Desk.deals_split lists separator))

theorem piecesOrNone (h : Resolves f' f) (separator : Symbol) :
    Resolves (InPlace.piecesOrNone separator f') (fun items =>
      if items.isEmpty then pure [] else (splitTop separator 0 items).mapM f) := by
  refine ⟨fun {base used chain items desk} lists => ?_⟩
  unfold InPlace.piecesOrNone
  rw [lists.size_eq]
  cases items with
  | nil =>
    obtain ⟨ids, holds, keeps, empty⟩ := lists
    obtain rfl := List.map_eq_nil_iff.1 empty
    exact mirrors_pure ⟨rfl, holds.owns, keeps⟩
  | cons item items =>
    exact (h.pieces separator).mirrors lists

variable {block' : Chain → InPlace (List Variable)} {block : Group.Resolver}

theorem single (h : Resolves block' block) :
    Resolves (InPlace.single block') (Group.single block) := h.andThen Range.join

/-- **A group is resolved in place.** -/
theorem value (h : Resolves block' block) (form : Group.Form) :
    Resolves (fun chain => InPlace.value block' chain form)
      (fun items => form.value block items) := by
  cases form with
  | literal =>
    have row : Resolves (InPlace.literalRow block') (Group.literalRow block) :=
      (((h.filled .emptyElement).pieces .comma).andThen Group.closeRow).filled .emptyRow
    exact (row.piecesOrNone .semicolon).andThen Group.emitLiteral
  | call f =>
    have argument : Resolves (InPlace.argument block' f) (Group.argument block f) :=
      (h.single.andThen (Build.ofOption (.emptyArgument f))).filled (.emptyArgument f)
    exact (argument.piecesOrNone .comma).andThen (Group.emitCall f)
  | address m =>
    have index : Resolves (InPlace.index block') (Group.index block) :=
      h.single.andThen Group.toIndex
    have address : Resolves (InPlace.address block') (Group.address block) :=
      ((index.pieces .comma).andThen fun is =>
        Build.ofExcept (Address.ofIndices is)).filled .emptyIndex
    exact address.andThen (Group.emitExtract m)
  | plain => exact h.single

end Resolves

/-! ### Resolving groups -/

/-- A group to which something in front of it belongs has something in front of it. -/
theorem Group.ne_nil_of_takesFront {opening : Symbol} {done : List Item}
    (h : (form opening done.head?).takesFront = true) : done ≠ [] := by
  rintro rfl
  unfold form at h
  split at h <;> simp_all [Form.takesFront]

namespace InPlace

variable {block' : Chain → InPlace (List Variable)} {block : Group.Resolver}

/-- **A group is resolved in place**: its inside in a chain of its own, and then the value takes the
place of the group. -/
theorem mirrors_resolve (h : Resolves block' block) (opening : Symbol) {base desk : Desk}
    {used xs inside behind : List Nat} {chain : Chain} {id close : Nat}
    (holds : desk.Holds used chain (xs ++ id :: inside ++ close :: behind))
    (keeps : base.Keeps used desk) :
    Mirrors desk (resolve block' opening chain id close)
      (do return (← Group.resolve block opening (xs.map desk.item).reverse (inside.map desk.item),
        behind.map desk.item))
      fun r r' desk' => Desk.At base used r.1 r.2 r'.1 r'.2 desk' := by
  have before : desk.pool.before id = xs.getLast? := by
    have links := holds.runs.links
    rw [List.append_assoc] at links
    exact links.around.1
  have after : desk.pool.after close = behind.head? := holds.runs.links.around.2
  have head : xs.getLast?.map desk.item = (xs.map desk.item).reverse.head? := by
    rw [List.head?_reverse, List.getLast?_map]
  unfold resolve
  refine mirrors_get_bind ?_
  dsimp only
  rw [before, after, head, Group.resolve_eq]
  simp only [bind_assoc, pure_bind]
  obtain ⟨lists, restored⟩ := Desk.lists_takeInside holds
  refine mirrors_edit_bind _ ?_
  refine ((h.value _).mirrors lists).bind fun v v' desk' same => ?_
  obtain ⟨rfl, spent⟩ := same
  -- the brackets, and what stands around them, have been left alone
  obtain ⟨holds', kept, same⟩ := restored spent
  have front : xs.map desk'.item = xs.map desk.item :=
    List.map_congr_left fun k mem => same k (by simp [mem])
  have back : behind.map desk'.item = behind.map desk.item :=
    List.map_congr_left fun k mem => same k (by simp [mem])
  rw [← front, ← back]
  refine mirrors_edit_bind _ (mirrors_pure ?_)
  refine Desk.at_collapse_group holds' (keeps.trans kept) _ ?_ v
  rintro takes rfl
  exact Group.ne_nil_of_takesFront takes rfl

/-- **Groups are resolved in place.** -/
theorem stepsLike_group (h : Resolves block' block) :
    StepsLike (groupStep block') (Group.groupTurn block) := by
  intro base used chain id done item items desk at'
  obtain ⟨xs, focus⟩ := at'.focus
  refine mirrors_get_bind ?_
  rw [focus.holds]
  unfold Group.groupTurn
  cases role : bracketRole item with
  | neutral => cases symbol? item <;> exact mirrors_pass focus
  | closing =>
    obtain ⟨s, symbol⟩ := exists_symbol (t := item) (by rw [role]; decide)
    rw [symbol]
    exact mirrors_fail _
  | opening =>
    obtain ⟨opening, symbol⟩ := exists_symbol (t := item) (by rw [role]; decide)
    rw [symbol]
    dsimp only
    obtain ⟨zs, holds, keeps, front, self, rfl⟩ := focus
    have opens : bracketRole (desk.pool.token id) = .opening := by
      rw [bracketRole, holds.symbols id (by simp), self, ← bracketRole, role]
    -- brackets are matched by the symbols that the nodes carry
    rw [matchingClose_eq holds.runs holds.owns.nodup.of_append_left opens,
      @untilClose_map _ _ _ (labels desk.pool) desk.item zs
        (fun id mem => (holds.symbols id (by simp [mem])).symm) 0]
    cases cut : @untilClose _ (labels desk.pool) 0 zs with
    | none => exact mirrors_fail _
    | some group =>
      obtain ⟨inside, close, behind⟩ := group
      obtain rfl := @append_of_untilClose _ (labels desk.pool) _ _ _ _ _ cut
      have shift : xs ++ id :: (inside ++ close :: behind) =
          xs ++ id :: inside ++ close :: behind := by simp
      rw [shift] at holds
      obtain rfl : (xs.map desk.item).reverse = done := by rw [front, List.reverse_reverse]
      exact mirrors_resolve h opening holds keeps

end InPlace

end MatrixCalc
