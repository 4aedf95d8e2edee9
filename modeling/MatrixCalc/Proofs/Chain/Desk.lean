import MatrixCalc.Proofs.Chain.Expansion
import MatrixCalc.Proofs.Sweeps

/-!
# Items in a chain

The nodes of a chain stand for items once words and literals are bound.  Operators are resolved in
place: a cursor goes along the chain while nodes in front of it and behind it are replaced, taken
out, given up and handed out again.  Beside it stands the same resolution on lists, and both are
compared step by step.

* `Desk`, `InPlace` : nodes with the items that they stand for, and computations on them.  Using up
  the turns of a loop is an outcome of its own.
* `InPlace.Mirrors` : a computation has an outcome, and it is that of a computation on lists.
* `Desk.Holds` : the chain runs through nodes which carry the symbols of their items.
* `Desk.At`, `Desk.Focus` : **the invariant of a cursor**: what has been passed, what follows, and
  that nothing has happened to any other chain.
* `Desk.Focus.replace`, `Desk.Focus.remove` : what an edit next to the cursor leaves of it.
* `mirrors_follow` : **a loop ends**, after as many turns as there are items, and does to the chain
  what it does to their list.
-/

namespace MatrixCalc

open EStateM (Result)
open Pool Chain

/-- Nodes, and what each stands for once words and literals are bound. -/
structure Desk where
  /-- The nodes. -/
  pool : Pool
  /-- What a node stands for. -/
  item : Nat → Item

/-- A computation that works on the nodes of a desk.  It has no outcome if a loop uses up its
turns. -/
abbrev InPlace (α : Type) := StateT Desk (OptionT (EStateM Error Draft)) α

/-! ### Beside a computation on lists -/

namespace InPlace

variable {α β γ δ : Type}

/-- What a computation does, started with a desk. -/
def outcome (x : InPlace α) (desk : Desk) : Build (Option (α × Desk)) := (x.run desk).run

/-- Both computations fail alike, or both succeed and their answers are related. -/
inductive Alike (post : α → β → Desk → Prop) :
    Result Error Draft (Option (α × Desk)) → Result Error Draft β → Prop
  | ok {a : α} {b : β} {desk : Desk} {d : Draft} (h : post a b desk) :
      Alike post (.ok (some (a, desk)) d) (.ok b d)
  | error {e : Error} {d : Draft} : Alike post (.error e d) (.error e d)

/-- Started with the desk, the computation has an outcome, and it is that of the other one, which
works on lists. -/
def Mirrors (desk : Desk) (x : InPlace α) (y : Build β) (post : α → β → Desk → Prop) : Prop :=
  ∀ d, Alike post (x.outcome desk d) (y d)

variable {desk : Desk} {x : InPlace α} {y : Build β} {f : α → InPlace γ} {g : β → Build δ}
  {mid : α → β → Desk → Prop} {post : γ → δ → Desk → Prop}

theorem outcome_bind (x : InPlace α) (f : α → InPlace γ) (desk : Desk) (d : Draft) :
    (x >>= f).outcome desk d = match x.outcome desk d with
      | .ok (some (a, desk)) d => (f a).outcome desk d
      | .ok none d => .ok none d
      | .error e d => .error e d := by
  change (x.outcome desk >>= fun r => _) d = _
  rw [bind_eq]
  cases x.outcome desk d with
  | ok r d =>
    cases r <;> rfl
  | error e d => rfl

theorem Mirrors.bind (hx : Mirrors desk x y mid)
    (hf : ∀ a b desk', mid a b desk' → Mirrors desk' (f a) (g b) post) :
    Mirrors desk (x >>= f) (y >>= g) post := by
  intro d
  have first := hx d
  rw [outcome_bind, bind_eq]
  generalize x.outcome desk d = r at first
  generalize y d = r' at first
  cases first with
  | ok h => exact hf _ _ _ h _
  | error => exact .error

/-- What is known of the answer on lists. -/
theorem Mirrors.gives {p : β → Prop} (hx : Mirrors desk x y mid) (hy : y.Gives p) :
    Mirrors desk x y fun a b desk' => mid a b desk' ∧ p b := by
  intro d
  have first := hx d
  have known := hy d
  generalize x.outcome desk d = r at first
  generalize y d = r' at first known
  cases first with
  | ok h => exact .ok ⟨h, known _ _ rfl⟩
  | error => exact .error

theorem Mirrors.mono {post' : α → β → Desk → Prop} (h : Mirrors desk x y mid)
    (sub : ∀ a b desk', mid a b desk' → post' a b desk') : Mirrors desk x y post' := by
  intro d
  have first := h d
  generalize x.outcome desk d = r at first
  generalize y d = r' at first
  cases first with
  | ok h => exact .ok (sub _ _ _ h)
  | error => exact .error

/-- There is an outcome. -/
theorem Mirrors.ne_none (h : Mirrors desk x y mid) (d d' : Draft) :
    x.outcome desk d ≠ .ok none d' := by
  have result := h d
  intro none
  rw [none] at result
  cases result

theorem mirrors_pure {a : α} {b : β} (h : mid a b desk) :
    Mirrors desk (pure a) (pure b) mid := fun _ => .ok h

theorem mirrors_fail (cause : Malformed) :
    Mirrors desk (liftM (Build.fail cause : Build α)) (Build.fail cause : Build β) mid :=
  fun _ => .error

theorem Mirrors.then_pure (hx : Mirrors desk x y mid) {answer : β → δ} {post : α → δ → Desk → Prop}
    (h : ∀ a b desk', mid a b desk' → post a (answer b) desk') :
    Mirrors desk x (y >>= fun b => pure (answer b)) post := by
  intro d
  have first := hx d
  rw [bind_eq]
  generalize x.outcome desk d = r at first
  generalize y d = r' at first
  cases first with
  | ok known => exact .ok (h _ _ _ known)
  | error => exact .error

/-- A step that does not concern the nodes. -/
theorem mirrors_lift_bind (z : Build α) {f : α → InPlace γ} {g : α → Build δ}
    (h : ∀ a, Mirrors desk (f a) (g a) post) : Mirrors desk (liftM z >>= f) (z >>= g) post := by
  intro d
  have lifted : (liftM z : InPlace α).outcome desk = z >>= fun a => pure (some (a, desk)) := by
    change (z >>= fun a => pure (some a)) >>= _ = _
    rw [bind_assoc]
    rfl
  rw [outcome_bind, lifted, bind_eq, bind_eq]
  cases z d with
  | ok a d => exact h a d
  | error e d => exact .error

/-- A last step that does not concern the nodes, or that only gives some up. -/
theorem mirrors_lift_last (z : Build α) {f : α → InPlace γ} {post : γ → α → Desk → Prop}
    (h : ∀ a, Mirrors desk (f a) (pure a) post) : Mirrors desk (liftM z >>= f) z post := by
  have last := mirrors_lift_bind z h
  rwa [bind_pure] at last

/-- A look at the nodes. -/
theorem mirrors_get_bind {f : Desk → InPlace γ} {y : Build δ}
    (h : Mirrors desk (f desk) y post) : Mirrors desk (get >>= f) y post := by
  intro d
  rw [outcome_bind]
  exact h d

/-- A change of the nodes. -/
theorem mirrors_edit_bind (edit : Desk → α × Desk) {f : α → InPlace γ} {y : Build δ}
    (h : Mirrors (edit desk).2 (f (edit desk).1) y post) :
    Mirrors desk (modifyGet edit >>= f) y post := by
  intro d
  rw [outcome_bind]
  exact h d

end InPlace

open InPlace

/-! ### Chains of items -/

namespace Desk

/-- A token that carries no symbol. -/
def plain : Token := .word ""

/-- Puts a variable in the place of what a node stands for. -/
def replace (desk : Desk) (id : Nat) (v : Variable) : Desk :=
  ⟨desk.pool.replace id plain, Function.update desk.item id (.value v)⟩

/-- Takes a node out of a chain. -/
def remove (chain : Chain) (id : Nat) (desk : Desk) : Chain × Desk :=
  ((Chain.remove desk.pool chain id).2.1, { desk with pool := (Chain.remove desk.pool chain id).1 })

/-- Puts a variable behind a node, or at the front. -/
def insertAfter (chain : Chain) (position : Option Nat) (v : Variable) (desk : Desk) :
    Chain × Desk :=
  let (pool, chain) := Chain.insertAfter desk.pool chain position plain
  (chain, ⟨pool, Function.update desk.item (desk.pool.allocate plain).2 (.value v)⟩)

/-- The chain runs through the nodes, which carry the symbols of the items that they stand for;
`used` are the nodes of all other chains. -/
structure Holds (desk : Desk) (used : List Nat) (chain : Chain) (ids : List Nat) : Prop where
  /-- What the chain runs through. -/
  runs : Runs desk.pool chain ids
  /-- The nodes are owned or free. -/
  owns : desk.pool.Owns (ids ++ used)
  /-- The nodes carry the symbols of their items. -/
  symbols : ∀ id ∈ ids, symbol? (desk.pool.token id) = symbol? (desk.item id)

/-- Nothing has happened to the nodes `used`. -/
def Keeps (base : Desk) (used : List Nat) (desk : Desk) : Prop :=
  ∀ id ∈ used, desk.pool.node id = base.pool.node id ∧ desk.item id = base.item id

variable {base desk desk' : Desk} {used ids xs zs : List Nat} {chain : Chain} {id : Nat}

namespace Keeps

theorem refl (desk : Desk) (used : List Nat) : desk.Keeps used desk := fun _ _ => ⟨rfl, rfl⟩

theorem trans (h : base.Keeps used desk) (h' : desk.Keeps used desk') : base.Keeps used desk' :=
  fun id mem => ⟨(h' id mem).1.trans (h id mem).1, (h' id mem).2.trans (h id mem).2⟩

/-- Nodes to which nothing happens carry the symbols of their items as before. -/
theorem symbol_eq (h : base.Keeps used desk) (mem : id ∈ used)
    (symbols : symbol? (base.pool.token id) = symbol? (base.item id)) :
    symbol? (desk.pool.token id) = symbol? (desk.item id) := by
  obtain ⟨node, item⟩ := h id mem
  rw [item, ← symbols]
  exact congrArg (fun n => symbol? (Node.token n)) node

end Keeps

/-- A node of a row stands for a variable now; the others are what they were. -/
theorem holds_update {pool' : Pool} {chain' : Chain}
    (symbols : ∀ k ∈ xs ++ zs, symbol? (desk.pool.token k) = symbol? (desk.item k))
    (edited : Edited used desk.pool pool' chain' (xs ++ [id] ++ zs)
      (xs.map desk.pool.token ++ [plain] ++ zs.map desk.pool.token)) (v : Variable) :
    Holds ⟨pool', Function.update desk.item id (.value v)⟩ used chain' (xs ++ id :: zs) ∧
      desk.Keeps used ⟨pool', Function.update desk.item id (.value v)⟩ ∧
      xs.map (Function.update desk.item id (.value v)) = xs.map desk.item ∧
      zs.map (Function.update desk.item id (.value v)) = zs.map desk.item := by
  obtain ⟨runs, tokens, owns, kept⟩ := edited
  have nodup := owns.nodup
  have other : ∀ k, k ≠ id → Function.update desk.item id (.value v) k = desk.item k :=
    fun k apart => Function.update_of_ne apart _ _
  rw [List.map_append, List.map_append] at tokens
  obtain ⟨tokens, behind⟩ := List.append_inj' tokens (by simp)
  obtain ⟨front, self⟩ := List.append_inj' tokens rfl
  rw [List.map_inj_left] at front behind
  have apart : ∀ k ∈ xs ++ zs, k ≠ id := by
    rintro k mem rfl
    grind
  have same : ∀ k ∈ xs ++ zs, pool'.token k = desk.pool.token k :=
    fun k mem => (List.mem_append.1 mem).elim (front k) (behind k)
  rw [← List.append_cons] at runs owns
  refine ⟨⟨runs, owns, fun k mem => ?_⟩, fun k mem => ⟨kept k mem, other k ?_⟩,
    List.map_congr_left fun k mem => other k (apart k (List.mem_append_left _ mem)),
    List.map_congr_left fun k mem => other k (apart k (List.mem_append_right _ mem))⟩
  · have cases : k = id ∨ k ∈ xs ++ zs := by grind
    rcases cases with rfl | mem
    · show symbol? (pool'.token k) = symbol? (Function.update desk.item k (.value v) k)
      rw [Function.update_self, List.singleton_inj.1 self]
      rfl
    · show symbol? (pool'.token k) = symbol? (Function.update desk.item id (.value v) k)
      rw [same k mem, other k (apart k mem)]
      exact symbols k mem
  · rintro rfl
    grind

/-- A variable in the place of an item. -/
theorem holds_replace (h : desk.Holds used chain (xs ++ id :: zs)) (v : Variable) :
    (desk.replace id v).Holds used chain (xs ++ id :: zs) ∧ desk.Keeps used (desk.replace id v) ∧
      xs.map (desk.replace id v).item = xs.map desk.item ∧
      zs.map (desk.replace id v).item = zs.map desk.item := by
  obtain ⟨runs, owns, symbols⟩ := h
  rw [List.append_cons] at runs owns
  exact holds_update (fun k mem => symbols k (by grind)) (runs_replace runs owns plain) v

/-- A variable that is put behind a row. -/
theorem holds_insertAfter (h : desk.Holds used chain (xs ++ zs)) (v : Variable) : ∃ id,
    (desk.insertAfter chain xs.getLast? v).2.Holds used (desk.insertAfter chain xs.getLast? v).1
      (xs ++ id :: zs) ∧
    desk.Keeps used (desk.insertAfter chain xs.getLast? v).2 ∧
    (desk.insertAfter chain xs.getLast? v).2.item id = .value v ∧
    xs.map (desk.insertAfter chain xs.getLast? v).2.item = xs.map desk.item ∧
    zs.map (desk.insertAfter chain xs.getLast? v).2.item = zs.map desk.item := by
  obtain ⟨id, rfl, edited⟩ := runs_insertAfter h.runs h.owns plain
  obtain ⟨holds, keeps, front, behind⟩ := holds_update h.symbols edited v
  exact ⟨_, holds, keeps, Function.update_self _ _ _, front, behind⟩

/-- A node that is taken out. -/
theorem holds_remove (h : desk.Holds used chain (xs ++ id :: zs)) :
    (desk.remove chain id).2.Holds used (desk.remove chain id).1 (xs ++ zs) ∧
      desk.Keeps used (desk.remove chain id).2 := by
  obtain ⟨runs, owns, symbols⟩ := h
  rw [List.append_cons] at runs owns
  have edited := runs_remove runs owns
  refine ⟨⟨edited.runs, edited.owns, fun k mem => ?_⟩, fun k mem => ⟨edited.kept k mem, rfl⟩⟩
  have token : (Chain.remove desk.pool chain id).1.token k = desk.pool.token k :=
    List.map_inj_left.1 edited.tokens k mem
  have there : k ∈ xs ++ id :: zs := by
    rcases List.mem_append.1 mem with mem | mem
    · exact List.mem_append_left _ mem
    · exact List.mem_append_right _ (List.mem_cons_of_mem _ mem)
  exact (congrArg symbol? token).trans (symbols k there)

/-! ### Positions -/

/-- The chain holds the items, and nothing has happened to the nodes `used` since `base`. -/
def Lists (base : Desk) (used : List Nat) (chain : Chain) (items : List Item) (desk : Desk) :
    Prop :=
  ∃ ids, desk.Holds used chain ids ∧ base.Keeps used desk ∧ ids.map desk.item = items

/-- The cursor stands in the chain behind the items `done`, whose last comes first, and in front of
`items`. -/
def At (base : Desk) (used : List Nat) (chain : Chain) (cursor : Option Nat)
    (done items : List Item) (desk : Desk) : Prop :=
  ∃ xs zs, desk.Holds used chain (xs ++ zs) ∧ base.Keeps used desk ∧ cursor = zs.head? ∧
    (xs.map desk.item).reverse = done ∧ zs.map desk.item = items

theorem Lists.at_first {items : List Item} (h : Lists base used chain items desk) :
    At base used chain chain.first [] items desk := by
  obtain ⟨ids, holds, keeps, rfl⟩ := h
  exact ⟨[], ids, holds, keeps, holds.runs.first, rfl, rfl⟩

theorem Lists.size_eq {items : List Item} (h : Lists base used chain items desk) :
    chain.size = items.length := by
  obtain ⟨ids, holds, -, rfl⟩ := h
  rw [holds.runs.size, List.length_map]

theorem At.lists {cursor : Option Nat} {done : List Item}
    (h : At base used chain cursor done [] desk) : Lists base used chain done.reverse desk := by
  obtain ⟨xs, zs, holds, keeps, -, rfl, empty⟩ := h
  obtain rfl := List.map_eq_nil_iff.1 empty
  rw [List.append_nil] at holds
  exact ⟨xs, holds, keeps, by rw [List.reverse_reverse]⟩

theorem At.cursor_eq_none {cursor : Option Nat} {done : List Item}
    (h : At base used chain cursor done [] desk) : cursor = none := by
  obtain ⟨xs, zs, -, -, rfl, -, empty⟩ := h
  rw [List.map_eq_nil_iff.1 empty]
  rfl

theorem At.exists_cursor {cursor : Option Nat} {done items : List Item} {item : Item}
    (h : At base used chain cursor done (item :: items) desk) : ∃ id, cursor = some id := by
  obtain ⟨xs, zs, -, -, rfl, -, filled⟩ := h
  obtain ⟨id, zs, rfl, -⟩ := List.map_eq_cons_iff.1 filled
  exact ⟨id, rfl⟩

/-- A look at one node of a chain: `xs` are the nodes in front of it, which stand for `front`, and
what is behind it stands for `items`. -/
def Focus (base : Desk) (used : List Nat) (chain : Chain) (xs : List Nat) (front : List Item)
    (id : Nat) (item : Item) (items : List Item) (desk : Desk) : Prop :=
  ∃ zs, desk.Holds used chain (xs ++ id :: zs) ∧ base.Keeps used desk ∧
    xs.map desk.item = front ∧ desk.item id = item ∧ zs.map desk.item = items

theorem At.focus {done items : List Item} {item : Item}
    (h : At base used chain (some id) done (item :: items) desk) :
    ∃ xs, Focus base used chain xs done.reverse id item items desk := by
  obtain ⟨xs, zs, holds, keeps, cursor, rfl, filled⟩ := h
  obtain ⟨_, zs, rfl, rfl, rfl⟩ := List.map_eq_cons_iff.1 filled
  obtain rfl := Option.some.inj cursor
  exact ⟨xs, zs, holds, keeps, (List.reverse_reverse _).symm, rfl, rfl⟩

namespace Focus

variable {front items : List Item} {item next : Item}

theorem holds (h : Focus base used chain xs front id item items desk) : desk.item id = item := by
  obtain ⟨_, -, -, -, rfl, -⟩ := h
  rfl

/-- The chain is longer than what is behind the node. -/
theorem length_lt (h : Focus base used chain xs front id item items desk) :
    items.length < chain.size := by
  obtain ⟨zs, holds, -, -, -, rfl⟩ := h
  rw [holds.runs.size, List.length_append, List.length_cons, List.length_map]
  omega

/-- The cursor behind the node. -/
theorem behind (h : Focus base used chain xs front id item items desk) :
    At base used chain (desk.pool.after id) (item :: front.reverse) items desk := by
  obtain ⟨zs, holds, keeps, rfl, rfl, rfl⟩ := h
  have after := holds.runs.links.around.2
  rw [List.append_cons] at holds
  refine ⟨xs ++ [id], zs, holds, keeps, after, ?_, rfl⟩
  rw [List.map_append, List.reverse_append]
  rfl

/-- There is no node behind the last one. -/
theorem after_eq_none (h : Focus base used chain xs front id item [] desk) :
    desk.pool.after id = none := by
  obtain ⟨zs, holds, -, -, -, empty⟩ := h
  obtain rfl := List.map_eq_nil_iff.1 empty
  exact holds.runs.links.around.2

/-- The node behind another one. -/
theorem move (h : Focus base used chain xs front id item (next :: items) desk) :
    ∃ id', desk.pool.after id = some id' ∧
      Focus base used chain (xs ++ [id]) (front ++ [item]) id' next items desk := by
  obtain ⟨zs, holds, keeps, rfl, rfl, filled⟩ := h
  obtain ⟨id', zs, rfl, rfl, rfl⟩ := List.map_eq_cons_iff.1 filled
  refine ⟨id', holds.runs.links.around.2, zs, ?_, keeps, List.map_append, rfl, rfl⟩
  rwa [← List.append_cons]

/-- There is no node in front of the first one. -/
theorem before_eq_none (h : Focus base used chain xs [] id item items desk) :
    desk.pool.before id = none := by
  obtain ⟨zs, holds, -, empty, -⟩ := h
  obtain rfl := List.map_eq_nil_iff.1 empty
  exact holds.runs.links.around.1

/-- There is a node in front of another one. -/
theorem exists_before {ys : List Nat}
    (h : Focus base used chain ys (front ++ [item]) id next items desk) :
    ∃ xs id', ys = xs ++ [id'] := by
  obtain ⟨zs, -, -, filled, -⟩ := h
  obtain ⟨xs, last, rfl, -, single⟩ := List.map_eq_append_iff.1 filled
  obtain ⟨id', rfl, -⟩ := List.map_eq_singleton_iff.1 single
  exact ⟨xs, id', rfl⟩

/-- The node in front of another one. -/
theorem back {id' : Nat}
    (h : Focus base used chain (xs ++ [id]) (front ++ [item]) id' next items desk) :
    desk.pool.before id' = some id ∧ desk.pool.after id = some id' ∧
      Focus base used chain xs front id item (next :: items) desk := by
  obtain ⟨zs, holds, keeps, filled, rfl, rfl⟩ := h
  rw [List.map_append] at filled
  obtain ⟨rfl, single⟩ := List.append_inj' filled rfl
  have before := holds.runs.links.around.1
  rw [← List.append_cons] at holds
  exact ⟨before.trans List.getLast?_concat, holds.runs.links.around.2, id' :: zs, holds, keeps, rfl,
    List.singleton_inj.1 single, rfl⟩

/-- A variable is put in the place of what the node stands for. -/
theorem replace (h : Focus base used chain xs front id item items desk) (v : Variable) :
    Focus base used chain xs front id (.value v) items (desk.replace id v) := by
  obtain ⟨zs, holds, keeps, rfl, -, rfl⟩ := h
  obtain ⟨holds', keeps', before, behind⟩ := holds_replace holds v
  exact ⟨zs, holds', keeps.trans keeps', before, Function.update_self _ _ _, behind⟩

/-- The node behind is taken out. -/
theorem remove {gone : Nat} (h : Focus base used chain xs front id item (next :: items) desk)
    (after : desk.pool.after id = some gone) :
    Focus base used (desk.remove chain gone).1 xs front id item items (desk.remove chain gone).2 ∧
      (desk.remove chain gone).2.pool.after id = desk.pool.after gone := by
  obtain ⟨zs, holds, keeps, rfl, rfl, filled⟩ := h
  obtain ⟨id', zs, rfl, rfl, rfl⟩ := List.map_eq_cons_iff.1 filled
  have link := holds.runs.links.around.2
  rw [after] at link
  obtain rfl := Option.some.inj link
  rw [List.append_cons] at holds
  have behind := holds.runs.links.around.2
  obtain ⟨holds', keeps'⟩ := holds_remove holds
  rw [← List.append_cons] at holds'
  exact ⟨⟨zs, holds', keeps.trans keeps', rfl, rfl, rfl⟩,
    holds'.runs.links.around.2.trans behind.symm⟩

end Focus

/-- A variable changes no link. -/
theorem after_replace (desk : Desk) (id : Nat) (v : Variable) (k : Nat) :
    (desk.replace id v).pool.after k = desk.pool.after k := by
  show ((desk.pool.put id _).node k).after = _
  rw [node_put]
  split
  · rename_i same
    rw [same.1]
    rfl
  · rfl

end Desk

/-! ### Loops -/

/-- Follows the cursor to the end of a chain.  There is no outcome if the turns do not suffice. -/
def follow (step : Chain → Nat → InPlace (Chain × Option Nat)) :
    Nat → Chain → Option Nat → InPlace Chain
  | _, chain, none => pure chain
  | 0, _, some _ => failure
  | turns + 1, chain, some id => do
    let (chain, cursor) ← step chain id
    follow step turns chain cursor

/-- A step in a chain does what a turn does in a list. -/
def StepsLike (step : Chain → Nat → InPlace (Chain × Option Nat)) (turn : Turn) : Prop :=
  ∀ {base : Desk} {used : List Nat} {chain : Chain} {id : Nat} {done : List Item} {item : Item}
    {items : List Item} {desk : Desk},
    Desk.At base used chain (some id) done (item :: items) desk →
      Mirrors desk (step chain id) (turn done item items) fun r r' desk' =>
        Desk.At base used r.1 r.2 r'.1 r'.2 desk'

/-- A node that a loop does not look at is passed. -/
theorem mirrors_pass {base desk : Desk} {used xs : List Nat} {chain : Chain} {id : Nat}
    {done items : List Item} {item : Item}
    (h : Desk.Focus base used chain xs done.reverse id item items desk) :
    Mirrors desk (pure (chain, desk.pool.after id)) (pure (item :: done, items)) fun r r' desk' =>
      Desk.At base used r.1 r.2 r'.1 r'.2 desk' := by
  have behind := h.behind
  rw [List.reverse_reverse] at behind
  exact mirrors_pure behind

/-- **A loop ends**: it takes no more turns than there are items behind the cursor, and does to the
chain what it does to their list. -/
theorem mirrors_follow {takes : Item → Prop} {loop : List Item → List Item → Build (List Item)}
    {turn : Turn} {step : Chain → Nat → InPlace (Chain × Option Nat)}
    (walks : Walks takes loop turn) (like : StepsLike step turn) {base desk : Desk}
    {used : List Nat} {chain : Chain}
    {cursor : Option Nat} {done items : List Item} {turns : Nat} (enough : items.length ≤ turns)
    (at' : Desk.At base used chain cursor done items desk) :
    Mirrors desk (follow step turns chain cursor) (loop done items) fun chain' rest desk' =>
      Desk.Lists base used chain' rest desk' := by
  induction turns generalizing desk chain cursor done items with
  | zero =>
    obtain rfl := List.length_eq_zero_iff.1 (Nat.le_zero.1 enough)
    obtain rfl := at'.cursor_eq_none
    rw [walks.nil]
    exact mirrors_pure at'.lists
  | succ turns ih =>
    cases items with
    | nil =>
      obtain rfl := at'.cursor_eq_none
      rw [walks.nil]
      exact mirrors_pure at'.lists
    | cons item items =>
      obtain ⟨id, rfl⟩ := at'.exists_cursor
      rw [walks.cons]
      refine ((like at').gives (walks.turned done item items)).bind fun r r' desk' after => ?_
      obtain ⟨at'', turned⟩ := after
      exact ih (turned.shorter.trans (Nat.le_of_succ_le_succ enough)) at''

end MatrixCalc
