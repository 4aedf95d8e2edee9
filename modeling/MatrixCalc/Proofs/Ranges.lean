import MatrixCalc.Proofs.Compilation
import MatrixCalc.Proofs.Conservation
import MatrixCalc.Proofs.Growth

/-!
# Forms of ranges

A list of variables and colons is cut wherever two variables stand side by side, and each piece is
read on its own.  `Range.Reads` says which pieces mean something: a variable, a range that starts
with a variable, and colons.  A colon that is left over behind another colon, or behind a range
with a step, is one more item, and stands for everything.

* `Range.parse_eq` : the pieces of a list are read one by one.
* `Range.parse_eq_ok_iff` : what a piece has to look like.
* `Range.handles_pieces` : **which lists are accepted, and the variables that they stand for**.
* `Session.left_over_colons` : `0:1:2:` and `::` are accepted.
-/

namespace MatrixCalc

namespace Range

variable {l l' rest : List (Option Variable)} {rs : List Range}

/-! ### Pieces -/

/-- Two neighbours stay together unless both are variables. -/
def together (a b : Option Variable) : Bool := !(a.isSome && b.isSome)

/-- The pieces of a list, which is cut between every two variables that stand side by side. -/
def cut (l : List (Option Variable)) : List (List (Option Variable)) := l.splitBy together

/-- The whole dimension. -/
def everything : Range := sequence (.span none none)

/-- An integer variable. -/
def integer (a : Cell .integer) : Option Variable := some ⟨.integer, a⟩

/-- What a piece means, for every piece that means something. -/
inductive Reads : List (Option Variable) → List Range → Prop
  /-- `v` is the variable. -/
  | value (v : Variable) : Reads [some v] [value v]
  /-- `:` is everything, and so is each colon behind it. -/
  | colons (more : Nat) :
      Reads (none :: List.replicate more none) (everything :: List.replicate more everything)
  /-- `a:` runs to the end. -/
  | start (a : Cell .integer) : Reads [integer a, none] [sequence (.span (some a) none)]
  /-- `a:b` has both ends. -/
  | ends (a b : Cell .integer) :
      Reads [integer a, none, integer b] [sequence (.progression a none b)]
  /-- `a:s:b` has a step.  Each colon behind it is everything. -/
  | steps (a s b : Cell .integer) (more : Nat) :
      Reads ([integer a, none, integer s, none, integer b] ++ List.replicate more none)
        (sequence (.progression a (some s) b) :: List.replicate more everything)

/-! ### Cuts -/

/-- The list does not start with a colon. -/
def Clear (l : List (Option Variable)) : Prop := ∀ a ∈ l.head?, a.isSome = true

/-- The list does not end with a colon. -/
def Ended (l : List (Option Variable)) : Prop := ∀ a ∈ l.getLast?, a.isSome = true

theorem Clear.append (h : Clear l) (h' : Clear l') : Clear (l ++ l') := by
  cases l with
  | nil => exact h'
  | cons a l => exact h

theorem Ended.tail {a : Option Variable} (h : Ended (a :: l)) : Ended l := by
  cases l with
  | nil => exact nofun
  | cons b l => simpa [Ended] using h

theorem not_ended_colon : ¬ Ended [none] := fun h => absurd (h none rfl) nofun

/-- A list that does not start with a colon is empty or starts with a variable. -/
theorem clear_of (h : ∀ rest, l = none :: rest → False) : Clear l := by
  cases l with
  | nil => exact nofun
  | cons a l =>
    cases a with
    | none => exact (h l rfl).elim
    | some v => simp [Clear]

theorem parse_value (v : Variable) (h : Clear rest) :
    parse (some v :: rest) = do return value v :: (← parse rest) := by
  cases rest with
  | nil => rfl
  | cons a rest =>
    cases a with
    | none => exact absurd (h none rfl) nofun
    | some w => rfl

theorem parse_ends (v w : Variable) (h : Clear rest) :
    parse (some v :: none :: some w :: rest) = do
      let start ← bound v
      let stop ← bound w
      return sequence (.progression start none stop) :: (← parse rest) := by
  cases rest with
  | nil => rfl
  | cons a rest =>
    cases a with
    | none => exact absurd (h none rfl) nofun
    | some w => rfl

/-- What stands behind a cut does not change how the list in front of it is read. -/
theorem parse_append (ended : Ended l) (clear : Clear l') :
    parse (l ++ l') = do return (← parse l) ++ (← parse l') := by
  -- a list that ends with a colon is not in front of a cut; otherwise the last range ends there
  fun_induction parse l with
  | case1 => exact (bind_pure (parse l')).symm
  | case2 => exact absurd ended not_ended_colon
  | case3 rest ih =>
    have more := ih ended.tail
    simp only [List.cons_append, parse] at more ⊢
    rw [more]
    simp
  | case4 | case6 => rfl
  | case5 => exact absurd ended.tail not_ended_colon
  | case7 v s w rest ih =>
    simp only [List.cons_append, parse, ih ended.tail.tail.tail.tail.tail]
    simp
  | case8 v w rest noEnd =>
    cases rest with
    | nil => exact absurd ended.tail.tail.tail not_ended_colon
    | cons a rest =>
      cases a with
      | some b => exact (noEnd b rest rfl).elim
      | none =>
        simp only [List.cons_append, parse, bind_assoc]
        rfl
  | case9 v w rest noStop noColon ih =>
    have open' := (clear_of noColon).append clear
    simp only [List.cons_append, parse_ends v w open', ih ended.tail.tail.tail]
    simp
  | case10 v rest single double step noEnd noStop ih =>
    have open' : Clear rest := clear_of fun behind eq => by
      subst eq
      cases behind with
      | nil => exact single rfl
      | cons a behind =>
        cases a with
        | none => exact double behind rfl
        | some b => exact noStop b behind rfl
    simp only [List.cons_append, parse_value v (open'.append clear), ih ended.tail]
    simp

/-- Lists that are joined at cuts are read one by one. -/
theorem parse_flatten (pieces : List (List (Option Variable)))
    (cuts : pieces.IsChain fun p q => ∃ hp hq, together (p.getLast hp) (q.head hq) = false) :
    parse pieces.flatten = (pieces.mapM parse).map List.flatten := by
  induction pieces with
  | nil => rfl
  | cons p pieces ih =>
    have step : (p :: pieces).mapM parse = do return (← parse p) :: (← pieces.mapM parse) :=
      List.mapM_cons
    cases pieces with
    | nil =>
      rw [step, List.flatten_cons, List.flatten_nil, List.append_nil, List.mapM_nil]
      cases parse p with
      | error cause => rfl
      | ok rs => exact congrArg Except.ok (List.append_nil rs).symm
    | cons q pieces =>
      obtain ⟨⟨hp, hq, apart⟩, more⟩ := List.isChain_cons_cons.1 cuts
      simp only [together, Bool.not_eq_false', Bool.and_eq_true] at apart
      have ended : Ended p := by
        intro a mem
        rw [List.getLast?_eq_some_getLast hp] at mem
        cases mem
        exact apart.1
      have clear : Clear (q :: pieces).flatten := by
        intro a mem
        rw [List.flatten_cons, List.head?_append, List.head?_eq_some_head hq] at mem
        cases mem
        exact apart.2
      rw [step, List.flatten_cons, parse_append ended clear, ih more]
      cases parse p with
      | error cause => rfl
      | ok rs =>
        generalize (q :: pieces).mapM parse = rest
        cases rest <;> rfl

/-- **The pieces of a list are read one by one.** -/
theorem parse_eq (l : List (Option Variable)) :
    parse l = ((cut l).mapM parse).map List.flatten := by
  have read := parse_flatten (cut l) (List.isChain_getLast_head_splitBy together l)
  rwa [cut, List.flatten_splitBy] at read

/-! ### One piece -/

/-- The list is one piece: no two variables stand side by side. -/
def Whole (l : List (Option Variable)) : Prop := l.IsChain fun a b => together a b = true

theorem Whole.tail {a : Option Variable} (h : Whole (a :: l)) : Whole l := List.IsChain.tail h

/-- Behind a variable a piece ends, or goes on with a colon. -/
theorem Whole.behind {v : Variable} (h : Whole (some v :: l)) :
    l = [] ∨ ∃ rest, l = none :: rest ∧ Whole (none :: rest) := by
  cases l with
  | nil => exact .inl rfl
  | cons a l =>
    cases a with
    | none => exact .inr ⟨l, rfl, h.tail⟩
    | some w => cases (List.isChain_cons_cons.1 h).1

theorem bound_eq_ok_iff {v : Variable} {a : Cell .integer} :
    bound v = .ok a ↔ v = ⟨.integer, a⟩ := by
  rcases v with ⟨_ | _ | _ | _, cell⟩ <;> simp [bound]

/-- A piece that starts with a colon consists of colons. -/
theorem parse_colons (h : Whole (none :: l)) : parse (none :: l) = .ok rs ↔
    ∃ more, l = List.replicate more none ∧ rs = everything :: List.replicate more everything := by
  induction l generalizing rs with
  | nil =>
    constructor
    · intro read
      cases read
      exact ⟨0, rfl, rfl⟩
    · rintro ⟨more, empty, rfl⟩
      cases more with
      | zero => rfl
      | succ => cases empty
  | cons a l ih =>
    cases a with
    | some v =>
      constructor
      · nofun
      · rintro ⟨more, eq, -⟩
        cases more <;> cases eq
    | none =>
      simp only [parse, except_bind_eq_ok_iff, except_pure_eq_ok_iff, ih h.tail]
      constructor
      · rintro ⟨_, ⟨more, rfl, rfl⟩, rfl⟩
        exact ⟨more + 1, rfl, rfl⟩
      · rintro ⟨more, eq, rfl⟩
        cases more with
        | zero => cases eq
        | succ more =>
          cases eq
          exact ⟨_, ⟨more, rfl, rfl⟩, rfl⟩

theorem reads_of_parse (h : parse l = .ok rs) (whole : Whole l) (nonempty : l ≠ []) :
    Reads l rs := by
  fun_cases parse l with
  | case1 => exact absurd rfl nonempty
  | case2 | case3 =>
    obtain ⟨more, eq, rfl⟩ := (parse_colons whole).1 h
    rw [eq]
    exact .colons more
  | case4 | case6 => cases h
  | case5 v =>
    simp only [parse, except_bind_eq_ok_iff, except_pure_eq_ok_iff, bound_eq_ok_iff] at h
    obtain ⟨a, rfl, rfl⟩ := h
    exact .start a
  | case7 v w u rest =>
    simp only [parse, except_bind_eq_ok_iff, except_pure_eq_ok_iff, bound_eq_ok_iff] at h
    obtain ⟨a, rfl, s, rfl, b, rfl, more, read, rfl⟩ := h
    rcases whole.tail.tail.tail.tail.behind with rfl | ⟨rest, rfl, colons⟩
    · cases read
      exact .steps a s b 0
    · obtain ⟨count, rfl, rfl⟩ := (parse_colons colons).1 read
      exact .steps a s b (count + 1)
  | case8 v w rest noEnd =>
    simp only [parse, except_bind_eq_ok_iff] at h
    obtain ⟨-, -, -, -, failed⟩ := h
    cases failed
  | case9 v w rest noStop noColon =>
    rcases whole.tail.tail.behind with rfl | ⟨rest, rfl, -⟩
    · simp only [parse, except_bind_eq_ok_iff, except_pure_eq_ok_iff, bound_eq_ok_iff] at h
      obtain ⟨a, rfl, b, rfl, _, read, rfl⟩ := h
      cases read
      exact .ends a b
    · exact (noColon rest rfl).elim
  | case10 v rest single double step noEnd noStop =>
    rcases whole.behind with rfl | ⟨rest, rfl, -⟩
    · cases h
      exact .value v
    · cases rest with
      | nil => exact (single rfl).elim
      | cons a rest =>
        cases a with
        | none => exact (double rest rfl).elim
        | some w => exact (noStop w rest rfl).elim

theorem parse_of_reads (h : Reads l rs) (whole : Whole l) : parse l = .ok rs := by
  cases h with
  | value | start | ends => rfl
  | colons more => exact (parse_colons whole).2 ⟨more, rfl, rfl⟩
  | steps a s b more =>
    have rest : parse (List.replicate more none) = .ok (List.replicate more everything) := by
      cases more with
      | zero => rfl
      | succ more => exact (parse_colons whole.tail.tail.tail.tail.tail).2 ⟨more, rfl, rfl⟩
    change (parse (List.replicate more none) >>= fun rs =>
      pure (sequence (.progression a (some s) b) :: rs)) = _
    rw [rest]
    rfl

theorem mapM_parse_eq_ok_iff {pieces : List (List (Option Variable))} {found : List (List Range)}
    (whole : ∀ p ∈ pieces, p ≠ [] ∧ Whole p) :
    pieces.mapM parse = .ok found ↔ List.Forall₂ Reads pieces found := by
  induction pieces generalizing found with
  | nil => cases found <;> simp [pure, Except.pure]
  | cons p pieces ih =>
    obtain ⟨nonempty, piece⟩ := whole p (by simp)
    have more (found : List (List Range)) :
        pieces.mapM parse = .ok found ↔ List.Forall₂ Reads pieces found :=
      ih fun q mem => whole q (by simp [mem])
    rw [List.mapM_cons]
    simp only [except_bind_eq_ok_iff, except_pure_eq_ok_iff, more]
    constructor
    · rintro ⟨rs, read, rest, reads, rfl⟩
      exact .cons (reads_of_parse read piece nonempty) reads
    · rintro (_ | ⟨read, reads⟩)
      exact ⟨_, parse_of_reads read piece, _, reads, rfl⟩

theorem exists_reads_iff (pieces : List (List (Option Variable))) :
    (∃ found, List.Forall₂ Reads pieces found) ↔ ∀ p ∈ pieces, ∃ rs, Reads p rs := by
  induction pieces with
  | nil => exact ⟨fun _ => List.forall_mem_nil _, fun _ => ⟨[], .nil⟩⟩
  | cons p pieces ih =>
    rw [List.forall_mem_cons, ← ih]
    constructor
    · rintro ⟨_, _ | ⟨first, rest⟩⟩
      exact ⟨⟨_, first⟩, _, rest⟩
    · rintro ⟨⟨rs, first⟩, found, rest⟩
      exact ⟨rs :: found, .cons first rest⟩

/-- **What a list has to look like**: every piece of it means something. -/
theorem parse_eq_ok_iff : parse l = .ok rs ↔
    ∃ found, List.Forall₂ Reads (cut l) found ∧ rs = found.flatten := by
  have whole : ∀ p ∈ cut l, p ≠ [] ∧ Whole p := fun p mem =>
    ⟨List.ne_nil_of_mem_splitBy mem, List.isChain_of_mem_splitBy mem⟩
  rw [parse_eq]
  constructor
  · intro read
    cases pieces : (cut l).mapM parse with
    | error cause =>
      rw [pieces] at read
      cases read
    | ok found =>
      rw [pieces] at read
      cases read
      exact ⟨found, (mapM_parse_eq_ok_iff whole).1 pieces, rfl⟩
  · rintro ⟨found, reads, rfl⟩
    rw [(mapM_parse_eq_ok_iff whole).2 reads]
    rfl

/-! ### Variables -/

/-- A variable or colon as an item. -/
def toItem : Option Variable → Item
  | some v => .value v
  | none => .symbol .colon

/-- The variable that an item of a list has become: a single variable stays as it is, and a range
has a new variable that holds it. -/
def Becomes (before after : Store) : Range → Variable → Prop
  | value v, w => w = v
  | sequence s, w =>
    ∃ cell : Cell .sequence, w = ⟨.sequence, cell⟩ ∧ ¬ before.Has cell ∧ after.Has cell ∧
      after.read cell = s

theorem Becomes.widen {s₀ s₁ s₂ s₃ : Store} {r : Range} {w : Variable} (h : Becomes s₁ s₂ r w)
    (larger : s₀.Extends s₁) (larger' : s₂.Extends s₃) : Becomes s₀ s₃ r w := by
  cases r with
  | value v => exact h
  | sequence s =>
    obtain ⟨cell, rfl, new, has, read⟩ := h
    exact ⟨cell, rfl, fun old => new (larger.has old), larger'.has has,
      (larger'.read has).trans read⟩

theorem exists_toVariable (r : Range) (d : Draft) : ∃ w d', toVariable r d = .ok w d' ∧
    d.store.Extends d'.store ∧ Becomes d.store d'.store r w := by
  cases r with
  | value v => exact ⟨v, d, rfl, .refl _, rfl⟩
  | sequence s =>
    exact ⟨_, _, Build.sequenceVariable_eq s d, @Store.extends_allocate d.store .sequence s, _,
      rfl, @Store.not_has_allocate d.store .sequence s,
      @Store.has_allocate d.store .sequence s, @Store.read_allocate_self d.store .sequence s⟩

theorem exists_toVariables (rs : List Range) (d : Draft) : ∃ ws d',
    rs.mapM toVariable d = .ok ws d' ∧ d.store.Extends d'.store ∧
      List.Forall₂ (Becomes d.store d'.store) rs ws := by
  induction rs generalizing d with
  | nil => exact ⟨[], d, rfl, .refl _, .nil⟩
  | cons r rs ih =>
    obtain ⟨w, d₁, first, larger, becomes⟩ := exists_toVariable r d
    obtain ⟨ws, d', rest, larger', more⟩ := ih d₁
    refine ⟨w :: ws, d', ?_, larger.trans larger', .cons (becomes.widen (.refl _) larger') ?_⟩
    · rw [List.mapM_cons, bind_eq, first]
      dsimp only
      rw [bind_eq, rest]
      rfl
    · exact more.imp fun _ _ h => h.widen larger (.refl _)

theorem mapM_piece (l : List (Option Variable)) (s : Store) :
    (l.map toItem).mapM (piece s) = .ok l := by
  induction l with
  | nil => rfl
  | cons a l ih =>
    rw [List.map_cons, List.mapM_cons, ih]
    cases a <;> rfl

/-- **Which lists are accepted, and what they stand for.**  A list of variables and colons is
accepted iff each of its pieces means something, and is a syntax error otherwise.  The items of an
accepted list are those of its pieces, in order. -/
theorem handles_pieces (l : List (Option Variable)) (d : Draft) :
    ((∃ ws d', handles (l.map toItem) d = .ok ws d') ↔ ∀ p ∈ cut l, ∃ rs, Reads p rs) ∧
    (∀ ws d', handles (l.map toItem) d = .ok ws d' → ∃ found,
      List.Forall₂ Reads (cut l) found ∧
      List.Forall₂ (Becomes d.store d'.store) found.flatten ws) ∧
    ((∃ p ∈ cut l, ∀ rs, ¬ Reads p rs) → ∃ cause,
      handles (l.map toItem) d = .error (.malformed cause) d) := by
  have start : handles (l.map toItem) d =
      (Build.ofExcept (parse l) >>= fun rs => rs.mapM toVariable) d := by
    rw [handles, bind_eq]
    change (Build.ofExcept ((l.map toItem).mapM (piece d.store)) >>= _) d = _
    rw [mapM_piece]
    rfl
  cases read : parse l with
  | ok rs =>
    obtain ⟨found, reads, rfl⟩ := parse_eq_ok_iff.1 read
    obtain ⟨ws, d', ok, -, becomes⟩ := exists_toVariables found.flatten d
    have all : ∀ p ∈ cut l, ∃ rs, Reads p rs := (exists_reads_iff _).1 ⟨found, reads⟩
    rw [start, read]
    refine ⟨⟨fun _ => all, fun _ => ⟨ws, d', ok⟩⟩, ?_, ?_⟩
    · intro ws' d'' ok'
      cases ok.symm.trans ok'
      exact ⟨found, reads, becomes⟩
    · rintro ⟨p, mem, none⟩
      obtain ⟨rs, reads⟩ := all p mem
      exact absurd reads (none rs)
  | error cause =>
    rw [start, read]
    refine ⟨⟨?_, fun all => ?_⟩, ?_, fun _ => ⟨cause, rfl⟩⟩
    · rintro ⟨ws, d', ok⟩
      cases ok
    · obtain ⟨found, reads⟩ := (exists_reads_iff _).2 all
      cases read.symm.trans (parse_eq_ok_iff.2 ⟨found, reads, rfl⟩)
    · intro ws d' ok
      cases ok

end Range

namespace Session

/-- The first `n` indices that a bound sequence means for the given size. -/
def firstIndices (s : Session) (name : String) (size n : Nat) : Option (List Int64) := do
  let sequence ← s.content? .sequence name
  let runs ← (sequence.runs s.store.read size).toOption
  return Runs.take n runs

/-- **A colon that is left over stands for everything.**  Behind the range `0:1:2` it goes on with
the whole dimension, and `::` is the whole dimension twice. -/
theorem left_over_colons :
    let q := ({} : Session).process "q = 0:1:2:"
    let r := ({} : Session).process "r = ::"
    q.result.toOption.isSome = true ∧
      q.session.firstIndices "q" 5 9 = some [0, 1, 2, 0, 1, 2, 3, 4] ∧
      r.result.toOption.isSome = true ∧
      r.session.firstIndices "r" 2 9 = some [0, 1, 0, 1] := by
  decide +kernel

end Session

end MatrixCalc
