import MatrixCalc.Proofs.Chain.Edits

/-!
# Scripts of edits

Any number of chains share a pool, and are edited in any order: tokens and whole chains are put in,
taken out, cut and joined.  Under each edit the chains behave like ordinary lists, of which the edit
changes those that it names.

* `Edit` : the edits, which name chains and nodes by their places.
* `Arena.edit` : an edit of chains.  `Edit.apply` : the same edit of ordinary lists.
* `Arena.Linked` : the invariant.  `Arena.Linked.edit` : every edit keeps it.
* `Arena.edits_refine` : **scripts on chains give what they give on ordinary lists.**
-/

namespace MatrixCalc

/-- An edit of one of several lists, which are given by their numbers; elements are given by their
places. -/
inductive Edit where
  /-- One more list, without elements. -/
  | create
  /-- Appends a token. -/
  | push (list : Nat) (token : Token)
  /-- Inserts a token behind an element, or at the front. -/
  | insertAfter (list : Nat) (place : Option Nat) (token : Token)
  /-- Removes an element. -/
  | remove (list place : Nat)
  /-- Replaces an element. -/
  | replace (list place : Nat) (token : Token)
  /-- Cuts out the elements from one place to another, which become one more list. -/
  | extract (list first last : Nat)
  /-- Moves the elements of another list behind an element, or to the front. -/
  | spliceAfter (list : Nat) (place : Option Nat) (other : Nat)
  /-- Splits a list at a separator; the pieces become further lists. -/
  | split (list : Nat) (separator : Symbol)
  /-- Removes all elements. -/
  | clear (list : Nat)

namespace Edit

/-- The number of elements up to a place, or none at the front. -/
def upTo (l : List Token) : Option Nat → Option Nat
  | none => some 0
  | some place => (l[place]?).map fun _ => place + 1

/-- The edit on ordinary lists; there is none where a list or an element does not exist. -/
def apply (lists : List (List Token)) : Edit → Option (List (List Token))
  | create => some (lists ++ [[]])
  | push list token => do
    let l ← lists[list]?
    return lists.set list (l ++ [token])
  | insertAfter list place token => do
    let l ← lists[list]?
    let n ← upTo l place
    return lists.set list (l.take n ++ [token] ++ l.drop n)
  | remove list place => do
    let l ← lists[list]?
    let _ ← l[place]?
    return lists.set list (l.eraseIdx place)
  | replace list place token => do
    let l ← lists[list]?
    let _ ← l[place]?
    return lists.set list (l.set place token)
  | extract list first last => do
    let l ← lists[list]?
    let _ ← l[last]?
    if first ≤ last then
      return lists.set list (l.take first ++ l.drop (last + 1)) ++ [(l.take (last + 1)).drop first]
    else none
  | spliceAfter list place other => do
    let l ← lists[list]?
    let m ← lists[other]?
    let n ← upTo l place
    if list = other then none
    else return (lists.set list (l.take n ++ m ++ l.drop n)).set other []
  | split list separator => do
    let l ← lists[list]?
    return lists.set list [] ++ splitTop separator 0 l
  | clear list => do
    let _ ← lists[list]?
    return lists.set list []

end Edit

/-- Chains that share a pool. -/
structure Arena where
  /-- The nodes of all chains. -/
  pool : Pool := {}
  /-- The chains. -/
  chains : List Chain := []

namespace Arena

open Chain Pool

/-- What the chains hold. -/
def contents (a : Arena) : List (List Token) := a.chains.map (·.tokens a.pool)

/-- The node at a place of a chain; the front of the chain is no node. -/
def position (a : Arena) (c : Chain) : Option Nat → Option (Option Nat)
  | none => some none
  | some place => ((c.ids a.pool)[place]?).map some

/-- The edit on chains. -/
def edit (a : Arena) : Edit → Option Arena
  | .create => some { a with chains := a.chains ++ [{}] }
  | .push list token => do
    let c ← a.chains[list]?
    let (pool, c) := Chain.push a.pool c token
    return ⟨pool, a.chains.set list c⟩
  | .insertAfter list place token => do
    let c ← a.chains[list]?
    let position ← a.position c place
    let (pool, c) := Chain.insertAfter a.pool c position token
    return ⟨pool, a.chains.set list c⟩
  | .remove list place => do
    let c ← a.chains[list]?
    let id ← (c.ids a.pool)[place]?
    let (pool, c, _) := Chain.remove a.pool c id
    return ⟨pool, a.chains.set list c⟩
  | .replace list place token => do
    let c ← a.chains[list]?
    let id ← (c.ids a.pool)[place]?
    return { a with pool := a.pool.replace id token }
  | .extract list first last => do
    let c ← a.chains[list]?
    let back ← (c.ids a.pool)[last]?
    let front ← (c.ids a.pool)[first]?
    if first ≤ last then
      let (pool, c, cut) := Chain.extract a.pool c front back
      return ⟨pool, a.chains.set list c ++ [cut]⟩
    else none
  | .spliceAfter list place other => do
    let c ← a.chains[list]?
    let m ← a.chains[other]?
    let position ← a.position c place
    if list = other then none
    else
      let (pool, c, m) := Chain.spliceAfter a.pool c position m
      return ⟨pool, (a.chains.set list c).set other m⟩
  | .split list separator => do
    let c ← a.chains[list]?
    let (pool, pieces) := Chain.split a.pool c separator
    return ⟨pool, a.chains.set list {} ++ pieces⟩
  | .clear list => do
    let c ← a.chains[list]?
    let (pool, c) := Chain.clear a.pool c
    return ⟨pool, a.chains.set list c⟩

/-- **The invariant of an arena.** -/
structure Linked (a : Arena) : Prop where
  /-- Each chain knows its ends and its length, and its nodes are linked to each other alone. -/
  chains : ∀ c ∈ a.chains, Runs a.pool c (c.ids a.pool)
  /-- Each node is in one chain, once, or is one of the free ones, once. -/
  nodes : a.pool.Owns (a.chains.map (·.ids a.pool)).flatten

/-! ### Editing one chain of many -/

/-- The chains and the nodes `loose`, which are in no chain, share the pool. -/
structure Shares (a : Arena) (loose : List Nat) : Prop where
  chains : ∀ c ∈ a.chains, Runs a.pool c (c.ids a.pool)
  nodes : a.pool.Owns ((a.chains.map (·.ids a.pool)).flatten ++ loose)

variable {a : Arena} {loose : List Nat} {c : Chain} {i : Nat}

theorem linked_iff_shares : a.Linked ↔ a.Shares [] := by
  constructor
  · rintro ⟨chains, nodes⟩
    exact ⟨chains, by rwa [List.append_nil]⟩
  · rintro ⟨chains, nodes⟩
    exact ⟨chains, by rwa [List.append_nil] at nodes⟩

/-- Chains whose nodes have kept their tokens and links are what they were. -/
theorem chains_of_kept {pool pool' : Pool} {chains : List Chain}
    (runs : ∀ d ∈ chains, Runs pool d (d.ids pool))
    (kept : ∀ d ∈ chains, ∀ id ∈ d.ids pool, pool'.node id = pool.node id) :
    (∀ d ∈ chains, Runs pool' d (d.ids pool')) ∧
      chains.map (·.ids pool') = chains.map (·.ids pool) ∧
      chains.map (·.tokens pool') = chains.map (·.tokens pool) := by
  have after : ∀ d ∈ chains, Runs pool' d (d.ids pool) := fun d mem =>
    (runs d mem).congr (kept d mem)
  refine ⟨fun d mem => ?_, List.map_congr_left fun d mem => (after d mem).ids_eq,
    List.map_congr_left fun d mem => ?_⟩
  · rw [(after d mem).ids_eq]
    exact after d mem
  · rw [(after d mem).tokens_eq, (runs d mem).tokens_eq]
    exact map_token_congr (kept d mem)

/-- **What is done to one chain is done to no other.**  The chain may be followed by new ones. -/
theorem Shares.focus (h : a.Shares loose) (found : a.chains[i]? = some c) :
    Runs a.pool c (c.ids a.pool) ∧ ∃ used, a.pool.Owns (c.ids a.pool ++ (loose ++ used)) ∧
      ∀ {pool' : Pool} {c' : Chain} {new : List Chain} {tokens : List Token}
        {more : List (List Token)} {loose' : List Nat},
        Divided (loose' ++ used) a.pool pool' (c' :: new) (tokens :: more) →
        Shares ⟨pool', a.chains.set i c' ++ new⟩ loose' ∧
          contents ⟨pool', a.chains.set i c' ++ new⟩ = a.contents.set i tokens ++ more := by
  obtain ⟨pool, chains⟩ := a
  obtain ⟨bound, at_i⟩ := List.getElem?_eq_some_iff.1 found
  obtain ⟨before, after, rfl, rfl⟩ : ∃ before after, chains = before ++ c :: after ∧
      before.length = i := by
    refine ⟨chains.take i, chains.drop (i + 1), ?_, List.length_take_of_le (Nat.le_of_lt bound)⟩
    rw [← at_i, List.getElem_cons_drop, List.take_append_drop]
  refine ⟨h.chains c (by simp), ((before ++ after).map (·.ids pool)).flatten, ?_, ?_⟩
  · refine h.nodes.perm ?_
    simp only [List.map_append, List.map_cons, List.flatten_append, List.flatten_cons]
    grind
  · rintro pool' c' new tokens more loose' ⟨idss, runs, tokens', owns, kept⟩
    cases runs with
    | @cons _ ids' _ idss runs more' =>
    obtain ⟨rfl, rfl⟩ := List.cons.inj tokens'
    -- the other chains are as they were
    have others : ∀ d ∈ before ++ after, ∀ id ∈ d.ids pool, pool'.node id = pool.node id :=
      fun d mem id inside => kept id (List.mem_append_right _
        (List.mem_flatten_of_mem (List.mem_map_of_mem mem) inside))
    obtain ⟨runsB, idsB, tokensB⟩ := @chains_of_kept pool pool' before
      (fun d mem => h.chains d (by grind)) fun d mem => others d (List.mem_append_left _ mem)
    obtain ⟨runsA, idsA, tokensA⟩ := @chains_of_kept pool pool' after
      (fun d mem => h.chains d (by grind)) fun d mem => others d (List.mem_append_right _ mem)
    obtain ⟨runsN, idsN, tokensN⟩ := runs_of_forall₂ more'
    have edited : (before ++ c :: after).set before.length c' ++ new =
        before ++ c' :: after ++ new := by simp
    rw [edited]
    refine ⟨⟨fun d mem => ?_, ?_⟩, ?_⟩
    · show Runs pool' d (d.ids pool')
      have cases : d ∈ before ∨ d = c' ∨ d ∈ after ∨ d ∈ new := by grind
      rcases cases with mem | rfl | mem | mem
      · exact runsB d mem
      · rw [runs.ids_eq]
        exact runs
      · exact runsA d mem
      · exact runsN d mem
    · refine owns.perm ?_
      simp only [List.map_append, List.map_cons, List.flatten_append, List.flatten_cons, idsB, idsA,
        idsN, runs.ids_eq]
      grind
    · simp only [contents, List.map_append, List.map_cons, tokensB, tokensA, tokensN,
        runs.tokens_eq]
      simp

/-! ### Every edit keeps the invariant -/

/-- An edit of chains gives what an edit of lists gives, or there is neither. -/
def Agree (edited : Option Arena) (plain : Option (List (List Token))) : Prop :=
  (∀ a, edited = some a → a.Linked) ∧ edited.map contents = plain

theorem agree_none : Agree none none := ⟨nofun, rfl⟩

theorem Linked.agree (h : a.Linked) {lists : List (List Token)} (same : a.contents = lists) :
    Agree (some a) (some lists) :=
  ⟨fun _ eq => Option.some.inj eq ▸ h, congrArg some same⟩

/-- The chain and the list of a number are there or not. -/
theorem getElem?_contents (a : Arena) (i : Nat) :
    a.contents[i]? = (a.chains[i]?).map (·.tokens a.pool) := List.getElem?_map

/-- The chain that an edit names, and what becomes of the arena. -/
theorem Linked.focus (h : a.Linked) (found : a.chains[i]? = some c) :
    Runs a.pool c (c.ids a.pool) ∧ ∃ used, a.pool.Owns (c.ids a.pool ++ used) ∧
      (∀ {pool' c' ids' tokens}, Edited used a.pool pool' c' ids' tokens →
        Agree (some ⟨pool', a.chains.set i c'⟩) (some (a.contents.set i tokens))) ∧
      ∀ {pool' c' new tokens more}, Divided used a.pool pool' (c' :: new) (tokens :: more) →
        Agree (some ⟨pool', a.chains.set i c' ++ new⟩)
          (some (a.contents.set i tokens ++ more)) := by
  obtain ⟨runs, used, owns, edited⟩ := (linked_iff_shares.1 h).focus found
  have divided : ∀ {pool' c' new tokens more},
      Divided used a.pool pool' (c' :: new) (tokens :: more) →
        Agree (some ⟨pool', a.chains.set i c' ++ new⟩)
          (some (a.contents.set i tokens ++ more)) := by
    intro pool' c' new tokens more divided
    obtain ⟨shares, same⟩ := @edited _ _ _ _ _ [] divided
    exact (linked_iff_shares.2 shares).agree same
  refine ⟨runs, used, owns, fun {pool' c' ids' tokens} one => ?_, divided⟩
  have agree := divided one.divided
  rwa [List.append_nil, List.append_nil] at agree

/-- A place of a chain is a place of its list. -/
theorem position_eq (runs : Runs a.pool c (c.ids a.pool)) (place : Option Nat) :
    a.position c place = none ∧ Edit.upTo (c.tokens a.pool) place = none ∨
    ∃ n, Edit.upTo (c.tokens a.pool) place = some n ∧
      a.position c place = some ((c.ids a.pool).take n).getLast? := by
  rw [runs.tokens_eq]
  cases place with
  | none => exact .inr ⟨0, rfl, rfl⟩
  | some place =>
    simp only [position, Edit.upTo, List.getElem?_map]
    cases found : (c.ids a.pool)[place]? with
    | none => exact .inl ⟨rfl, rfl⟩
    | some id =>
      refine .inr ⟨place + 1, rfl, ?_⟩
      rw [List.take_add_one, found]
      exact congrArg some List.getLast?_concat.symm

theorem set_same {α : Type} {xs : List α} {x : α} (found : xs[i]? = some x) : xs.set i x = xs := by
  obtain ⟨bound, rfl⟩ := List.getElem?_eq_some_iff.1 found
  exact List.set_getElem_self bound

/-- A row is cut at the place of a node. -/
theorem cut_at {ids : List Nat} {place id : Nat} (found : ids[place]? = some id) :
    ids.take place ++ [id] ++ ids.drop (place + 1) = ids := by
  obtain ⟨bound, rfl⟩ := List.getElem?_eq_some_iff.1 found
  simp

theorem Linked.create (h : a.Linked) : Agree (a.edit .create) (Edit.apply a.contents .create) := by
  refine Linked.agree ⟨fun c mem => ?_, ?_⟩ ?_
  · rcases List.mem_append.1 mem with mem | mem
    · exact h.chains c mem
    · obtain rfl := List.mem_singleton.1 mem
      exact .empty a.pool
  · show a.pool.Owns ((a.chains ++ [({} : Chain)]).map (·.ids a.pool)).flatten
    rw [List.map_append, List.flatten_append]
    exact h.nodes.perm (.of_eq (List.append_nil _))
  · exact List.map_append

theorem Linked.push (h : a.Linked) (list : Nat) (token : Token) :
    Agree (a.edit (.push list token)) (Edit.apply a.contents (.push list token)) := by
  simp only [edit, Edit.apply, getElem?_contents]
  cases found : a.chains[list]? with
  | none => exact agree_none
  | some c =>
    obtain ⟨runs, used, owns, one, -⟩ := h.focus found
    obtain ⟨id, edited⟩ := runs_push runs owns token
    rw [← runs.tokens_eq] at edited
    exact one edited

theorem Linked.insertAfter (h : a.Linked) (list : Nat) (place : Option Nat) (token : Token) :
    Agree (a.edit (.insertAfter list place token))
      (Edit.apply a.contents (.insertAfter list place token)) := by
  simp only [edit, Edit.apply, getElem?_contents]
  cases found : a.chains[list]? with
  | none => exact agree_none
  | some c =>
    obtain ⟨runs, used, owns, one, -⟩ := h.focus found
    show Agree (a.position c place >>= fun _ => _)
      (Edit.upTo (c.tokens a.pool) place >>= fun _ => _)
    rcases position_eq runs place with ⟨none, none'⟩ | ⟨n, upTo, position⟩
    · rw [none, none']
      exact agree_none
    · rw [upTo, position]
      have cut := List.take_append_drop n (c.ids a.pool)
      obtain ⟨id, -, edited⟩ := runs_insertAfter (cut.symm ▸ runs) (cut.symm ▸ owns) token
      rw [List.map_take, List.map_drop, ← runs.tokens_eq] at edited
      exact one edited

theorem Linked.remove (h : a.Linked) (list place : Nat) :
    Agree (a.edit (.remove list place)) (Edit.apply a.contents (.remove list place)) := by
  simp only [edit, Edit.apply, getElem?_contents]
  cases found : a.chains[list]? with
  | none => exact agree_none
  | some c =>
    obtain ⟨runs, used, owns, one, -⟩ := h.focus found
    show Agree ((c.ids a.pool)[place]? >>= fun _ => _) ((c.tokens a.pool)[place]? >>= fun _ => _)
    rw [runs.tokens_eq, List.getElem?_map]
    cases at_place : (c.ids a.pool)[place]? with
    | none => exact agree_none
    | some id =>
      have cut := cut_at at_place
      have edited := runs_remove (cut.symm ▸ runs) (cut.symm ▸ owns)
      rw [List.map_append, List.map_take, List.map_drop, ← runs.tokens_eq,
        ← List.eraseIdx_eq_take_drop_succ (c.tokens a.pool)] at edited
      exact one edited

theorem Linked.replace (h : a.Linked) (list place : Nat) (token : Token) :
    Agree (a.edit (.replace list place token))
      (Edit.apply a.contents (.replace list place token)) := by
  simp only [edit, Edit.apply, getElem?_contents]
  cases found : a.chains[list]? with
  | none => exact agree_none
  | some c =>
    obtain ⟨runs, used, owns, one, -⟩ := h.focus found
    show Agree ((c.ids a.pool)[place]? >>= fun _ => _) ((c.tokens a.pool)[place]? >>= fun _ => _)
    rw [runs.tokens_eq, List.getElem?_map]
    cases at_place : (c.ids a.pool)[place]? with
    | none => exact agree_none
    | some id =>
      have cut := cut_at at_place
      have edited := runs_replace (cut.symm ▸ runs) (cut.symm ▸ owns) token
      rw [cut, List.map_take, List.map_drop, List.append_assoc, List.singleton_append,
        ← List.set_eq_take_cons_drop] at edited
      · have agree := one edited
        rwa [set_same found] at agree
      · rw [List.length_map]
        exact (List.getElem?_eq_some_iff.1 at_place).1

theorem Linked.clear (h : a.Linked) (list : Nat) :
    Agree (a.edit (.clear list)) (Edit.apply a.contents (.clear list)) := by
  simp only [edit, Edit.apply, getElem?_contents]
  cases found : a.chains[list]? with
  | none => exact agree_none
  | some c =>
    obtain ⟨runs, used, owns, one, -⟩ := h.focus found
    exact one (runs_clear runs owns)

theorem Linked.split (h : a.Linked) (list : Nat) (separator : Symbol) :
    Agree (a.edit (.split list separator)) (Edit.apply a.contents (.split list separator)) := by
  simp only [edit, Edit.apply, getElem?_contents]
  cases found : a.chains[list]? with
  | none => exact agree_none
  | some c =>
    obtain ⟨runs, used, owns, -, divided⟩ := h.focus found
    have parted := runs_split runs owns separator
    have all : Divided used a.pool (Chain.split a.pool c separator).1
        ({} :: (Chain.split a.pool c separator).2)
        ([] :: splitTop separator 0 (c.tokens a.pool)) := by
      refine ⟨[] :: _, .cons (.empty _) parted.runs, ?_, parted.owns, parted.kept⟩
      rw [runs.tokens_eq]
      exact congrArg ([] :: ·) parted.tokens
    exact divided all

/-- A row is cut at the places of its ends. -/
theorem cut_between {ids : List Nat} {first last front back : Nat} (ordered : first ≤ last)
    (at_first : ids[first]? = some front) (at_last : ids[last]? = some back) :
    ids.take first ++ (ids.take (last + 1)).drop first ++ ids.drop (last + 1) = ids ∧
      ((ids.take (last + 1)).drop first).head? = some front ∧
      ((ids.take (last + 1)).drop first).getLast? = some back := by
  refine ⟨?_, ?_, ?_⟩
  · have front : ids.take first = (ids.take (last + 1)).take first := by
      rw [List.take_take, Nat.min_eq_left (Nat.le_succ_of_le ordered)]
    rw [front, List.take_append_drop, List.take_append_drop]
  · rw [List.head?_drop, List.getElem?_take_of_lt (Nat.lt_succ_of_le ordered), at_first]
  · obtain ⟨bound, -⟩ := List.getElem?_eq_some_iff.1 at_last
    rw [List.getLast?_drop, List.getLast?_take, if_neg (Nat.succ_ne_zero _), Nat.add_sub_cancel,
      at_last, List.length_take_of_le bound, if_neg (by omega)]
    rfl

theorem Linked.extract (h : a.Linked) (list first last : Nat) :
    Agree (a.edit (.extract list first last))
      (Edit.apply a.contents (.extract list first last)) := by
  simp only [edit, Edit.apply, getElem?_contents]
  cases found : a.chains[list]? with
  | none => exact agree_none
  | some c =>
    obtain ⟨runs, used, owns, -, divided⟩ := h.focus found
    show Agree ((c.ids a.pool)[last]? >>= fun _ => _) ((c.tokens a.pool)[last]? >>= fun _ => _)
    rw [runs.tokens_eq, List.getElem?_map]
    cases at_last : (c.ids a.pool)[last]? with
    | none => exact agree_none
    | some back =>
      show Agree ((c.ids a.pool)[first]? >>= fun _ => _) (if first ≤ last then _ else _)
      by_cases ordered : first ≤ last
      · obtain ⟨front, at_first⟩ : ∃ front, (c.ids a.pool)[first]? = some front := by
          obtain ⟨bound, -⟩ := List.getElem?_eq_some_iff.1 at_last
          exact ⟨_, List.getElem?_eq_getElem (Nat.lt_of_le_of_lt ordered bound)⟩
        obtain ⟨cut, head, getLast⟩ := cut_between ordered at_first at_last
        rw [at_first, if_pos ordered]
        show Agree (if first ≤ last then _ else _) _
        rw [if_pos ordered]
        have owns' := owns
        rw [← cut] at owns'
        obtain ⟨rest, piece, changed⟩ := runs_extract (cut.symm ▸ runs)
          owns'.nodup.of_append_left (fun id mem => owns'.lt (List.mem_append_left _ mem)) head
          getLast
        have all : Divided used a.pool (Chain.extract a.pool c front back).1
            [(Chain.extract a.pool c front back).2.1, (Chain.extract a.pool c front back).2.2]
            [(c.tokens a.pool).take first ++ (c.tokens a.pool).drop (last + 1),
              ((c.tokens a.pool).take (last + 1)).drop first] := by
          refine ⟨_, .cons rest (.cons piece .nil), ?_, ?_, fun id mem => changed.node id ?_⟩
          · rw [runs.tokens_eq]
            simp only [List.map_cons, changed.map_token, List.map_append, List.map_take,
              List.map_drop, List.map_nil]
          · refine (changed.owns owns').perm ?_
            simp only [List.flatten_cons, List.flatten_nil]
            grind
          · exact fun inside => (List.nodup_append'.1 owns'.nodup).2.2 inside mem
        exact divided all
      · rw [if_neg ordered]
        cases (c.ids a.pool)[first]? with
        | none => exact agree_none
        | some front =>
          show Agree (if first ≤ last then _ else _) _
          rw [if_neg ordered]
          exact agree_none

theorem Linked.spliceAfter (h : a.Linked) (list : Nat) (place : Option Nat) (other : Nat) :
    Agree (a.edit (.spliceAfter list place other))
      (Edit.apply a.contents (.spliceAfter list place other)) := by
  simp only [edit, Edit.apply, getElem?_contents]
  cases found : a.chains[list]? with
  | none => exact agree_none
  | some c =>
    show Agree (a.chains[other]? >>= fun _ => _) ((a.chains[other]?).map _ >>= fun _ => _)
    cases found' : a.chains[other]? with
    | none => exact agree_none
    | some m =>
      show Agree (a.position c place >>= fun _ => _)
        (Edit.upTo (c.tokens a.pool) place >>= fun _ => _)
      have shares := linked_iff_shares.1 h
      obtain ⟨runs, -⟩ := shares.focus found
      rcases position_eq runs place with ⟨none, none'⟩ | ⟨n, upTo, position⟩
      · rw [none, none']
        exact agree_none
      rw [upTo, position]
      show Agree (if list = other then _ else _) (if list = other then _ else _)
      by_cases same : list = other
      · rw [if_pos same, if_pos same]
        exact agree_none
      rw [if_neg same, if_neg same]
      -- the nodes of the other chain are set loose, then they are linked into the chain
      obtain ⟨moved, used, owns, edited⟩ := shares.focus found'
      have loose : Divided (m.ids a.pool ++ used) a.pool a.pool [{}] [[]] :=
        ⟨[[]], .cons (.empty a.pool) .nil, rfl, owns, fun _ _ => rfl⟩
      obtain ⟨shares', contents'⟩ := edited loose
      rw [List.append_nil] at shares'
      have found'' : (a.chains.set other {})[list]? = some c := by
        rw [List.getElem?_set_ne (Ne.symm same), found]
      obtain ⟨-, used', owns', edited'⟩ := shares'.focus found''
      have cut := List.take_append_drop n (c.ids a.pool)
      have all : a.pool.Owns ((c.ids a.pool).take n ++ m.ids a.pool ++ (c.ids a.pool).drop n ++
          used') := by
        rw [← cut] at owns'
        exact owns'.perm (by grind)
      obtain ⟨joined, rest, changed⟩ := runs_spliceAfter (cut.symm ▸ runs) moved
        all.nodup.of_append_left fun id mem => all.lt (List.mem_append_left _ mem)
      have edited := Edited.of_relinks all changed joined (.refl _)
      obtain ⟨shares'', contents''⟩ := @edited' _ _ _ _ _ [] edited.divided
      have agree := (linked_iff_shares.2 shares'').agree contents''
      rw [List.append_nil] at contents'
      simp only [List.append_nil, contents', List.set_comm _ _ (Ne.symm same), List.map_append,
        List.map_take, List.map_drop, ← runs.tokens_eq, ← moved.tokens_eq] at agree
      show Agree (some ⟨_, (a.chains.set list _).set other _⟩) _
      rw [rest]
      exact agree

/-- **Every edit keeps the invariant**, and gives what it gives on ordinary lists. -/
theorem Linked.edit (h : a.Linked) (e : Edit) : Agree (a.edit e) (Edit.apply a.contents e) := by
  cases e with
  | create => exact h.create
  | push list token => exact h.push list token
  | insertAfter list place token => exact h.insertAfter list place token
  | remove list place => exact h.remove list place
  | replace list place token => exact h.replace list place token
  | extract list first last => exact h.extract list first last
  | spliceAfter list place other => exact h.spliceAfter list place other
  | split list separator => exact h.split list separator
  | clear list => exact h.clear list

/-! ### Scripts -/

theorem Linked.empty : Linked {} := ⟨nofun, .empty⟩

/-- A script of edits keeps the invariant, and gives what it gives on ordinary lists. -/
theorem Linked.edits (h : a.Linked) (script : List Edit) :
    Agree (script.foldlM Arena.edit a) (script.foldlM Edit.apply a.contents) := by
  induction script generalizing a with
  | nil => exact h.agree rfl
  | cons e script ih =>
    obtain ⟨linked, same⟩ := h.edit e
    show Agree (a.edit e >>= fun _ => _) (Edit.apply a.contents e >>= fun _ => _)
    rw [← same]
    cases edited : a.edit e with
    | none => exact agree_none
    | some a' => exact ih (linked a' edited)

/-- **Chains that share a pool refine ordinary lists.**  From the empty arena on, a script of edits
can be carried out on chains iff it can be carried out on lists, and it gives the same lists.  All
the time each node of the pool is in one chain or free, once; a chain passes as many nodes as its
length says, links to the front and to the back are inverse, and nothing is linked beyond the
ends. -/
theorem edits_refine (script : List Edit) :
    (script.foldlM Arena.edit {}).map contents = script.foldlM Edit.apply [] ∧
    ∀ a, script.foldlM Arena.edit {} = some a → a.Linked ∧ ∀ c ∈ a.chains,
      (∀ steps, c.size ≤ steps → a.pool.walk steps c.first = c.ids a.pool) ∧
      (c.ids a.pool).length = c.size ∧
      (∀ x, c.first = some x → a.pool.before x = none) ∧
      (∀ x, c.last = some x → a.pool.after x = none) ∧
      ∀ x ∈ c.ids a.pool, ∀ y,
        a.pool.after x = some y ↔ y ∈ c.ids a.pool ∧ a.pool.before y = some x := by
  obtain ⟨linked, same⟩ := Linked.empty.edits script
  refine ⟨same, fun a run => ⟨linked a run, fun c mem => ?_⟩⟩
  have runs := (linked a run).chains c mem
  refine ⟨fun steps enough => ?_, runs.size.symm, fun x front => ?_, fun x back => ?_,
    fun x inside y => runs.links.after_eq_some_iff inside⟩
  · rw [runs.first]
    exact runs.links.walk (runs.size ▸ enough)
  · rw [runs.first] at front
    obtain ⟨rest, eq⟩ := List.head?_eq_some_iff.1 front
    have links := runs.links
    rw [eq] at links
    exact links.1
  · rw [runs.last] at back
    obtain ⟨init, eq⟩ := List.getLast?_eq_some_iff.1 back
    have links := runs.links
    rw [eq] at links
    exact links.around.2

end Arena

end MatrixCalc
