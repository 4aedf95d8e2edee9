import MatrixCalc.Proofs.Reads

/-!
# Linear computations

A part of the compilation takes the variables that stand in a list of items, and gives back others
that stand for the result.  Every intermediate variable it takes it either gives back or reads, and
what it computes it gives back, each exactly once.

* `Draft.Sound` : the operations so far write new variables, each one once, and read only what is
  there before.
* `Draft.Balanced` : **the conservation law**, one equation for every intermediate variable.
* `Build.Linear` : a computation keeps drafts sound, and obeys the law.
-/

namespace MatrixCalc

/-- The variables that a program writes. -/
def Program.outputs (program : Program) : List Variable := program.map Operation.output

theorem Program.outputs_append (first second : Program) :
    outputs (first ++ second) = outputs first ++ outputs second := List.map_append

/-- A list with one element more, cut at an element. -/
theorem append_singleton_eq_iff {α : Type} {xs done rest : List α} {x y : α} :
    xs ++ [x] = done ++ y :: rest ↔
      (rest = [] ∧ done = xs ∧ y = x) ∨ ∃ rest', rest = rest' ++ [x] ∧ xs = done ++ y :: rest' := by
  constructor
  · intro h
    rcases List.eq_nil_or_concat rest with rfl | ⟨rest', z, rfl⟩
    · obtain ⟨rfl, same⟩ := List.append_inj' h rfl
      cases same
      exact .inl ⟨rfl, rfl, rfl⟩
    · rw [List.concat_eq_append, ← List.cons_append, ← List.append_assoc] at h
      obtain ⟨rfl, same⟩ := List.append_inj' h rfl
      cases same
      exact .inr ⟨rest', List.concat_eq_append, rfl⟩
  · rintro (⟨rfl, rfl, rfl⟩ | ⟨rest', rfl, rfl⟩) <;> simp

namespace Draft

/-! ### Sound drafts -/

/-- A variable that an operation behind `done` may read: it was there at the start, is a literal, is
a sequence, or has been computed. -/
def Defined (base : Store) (literals : List Variable) (done : Program) (v : Variable) : Prop :=
  base.Has v.cell ∨ v ∈ literals ∨ v.kind = .sequence ∨ v ∈ done.outputs

/-- A draft begun with the store `base`, with the given literals: its operations write different new
variables and read what is defined before them. -/
structure Sound (base : Store) (literals : List Variable) (d : Draft) : Prop where
  /-- The first cells are as they were. -/
  old : base.Extends d.store
  /-- The cells of all sequences exist. -/
  closed : d.store.Closed
  /-- Literals have new cells and are no sequences. -/
  literal : ∀ v ∈ literals, d.store.Has v.cell ∧ ¬ base.Has v.cell ∧ v.kind ≠ .sequence
  /-- What is noted as a constant is a literal. -/
  constants : ∀ entry ∈ d.constants, (⟨.integer, entry.1⟩ : Variable) ∈ literals
  /-- No two operations write the same variable. -/
  nodup : d.program.outputs.Nodup
  /-- Operations write new variables that are neither literals nor sequences. -/
  outputs : ∀ v ∈ d.program.outputs, d.store.Has v.cell ∧ ¬ base.Has v.cell ∧ v ∉ literals ∧
    v.kind ≠ .sequence
  /-- Operations read what is defined before them. -/
  ordered : ∀ done op rest, d.program = done ++ op :: rest → ∀ v ∈ d.store.reads op.term,
    d.store.Has v.cell ∧ Defined base literals done v

/-- All that a variable reaches can be read by the next operation. -/
def Available (base : Store) (literals : List Variable) (d : Draft) (v : Variable) : Prop :=
  ∀ w ∈ d.store.reach v, d.store.Has w.cell ∧ Defined base literals d.program w

variable {base : Store} {literals : List Variable} {d d₁ d' : Draft}

theorem Available.has {v : Variable} (h : d.Available base literals v) : d.store.Has v.cell :=
  (h v (d.store.mem_reach_self v)).1

theorem Defined.mono {done more : Program} {v : Variable} (h : Defined base literals done v) :
    Defined base literals (done ++ more) v := by
  rcases h with old | literal | kind | computed
  · exact .inl old
  · exact .inr (.inl literal)
  · exact .inr (.inr (.inl kind))
  · rw [Defined, Program.outputs_append]
    exact .inr (.inr (.inr (List.mem_append_left _ computed)))

/-- What is available stays available. -/
theorem Available.mono {v : Variable} (h : d.Available base literals v) (grows : d.Grows d') :
    d'.Available base literals v := by
  intro w reached
  rw [grows.extends.reach h.has] at reached
  obtain ⟨has, defined⟩ := h w reached
  obtain ⟨more, program⟩ := grows.program
  rw [program]
  exact ⟨grows.extends.has has, defined.mono⟩

theorem Sound.has_operand (h : d.Sound base literals) {op : Operation} (mem : op ∈ d.program)
    {v : Variable} (operand : v ∈ op.term.operands) : d.store.Has v.cell := by
  obtain ⟨done, rest, cut⟩ := List.append_of_mem mem
  exact (h.ordered done op rest cut v (d.store.mem_reads_of_operand operand)).1

/-- A sound draft stays sound in a larger store. -/
theorem Sound.widen (h : d.Sound base literals) (larger : d.store.Extends d'.store)
    (closed : d'.store.Closed) (constants : d'.constants = d.constants)
    (program : d'.program = d.program) : d'.Sound base literals where
  old := h.old.trans larger
  closed := closed
  literal v mem := ⟨larger.has (h.literal v mem).1, (h.literal v mem).2⟩
  constants := by
    rw [constants]
    exact h.constants
  nodup := by
    rw [program]
    exact h.nodup
  outputs := by
    rw [program]
    exact fun v mem => ⟨larger.has (h.outputs v mem).1, (h.outputs v mem).2⟩
  ordered := by
    rw [program]
    intro done op rest cut v mem
    have operands : ∀ w ∈ op.term.operands, d.store.Has w.cell := fun w operand =>
      h.has_operand (by rw [cut]; simp) operand
    rw [larger.reads operands] at mem
    obtain ⟨has, defined⟩ := h.ordered done op rest cut v mem
    exact ⟨larger.has has, defined⟩

/-! ### The conservation law -/

/-- Between two drafts, every intermediate variable that is neither a literal nor a sequence is read
or given back as often as it is taken or computed. -/
def Balanced (literals : List Variable) (d : Draft) (taken : List Variable) (d' : Draft)
    (given : List Variable) : Prop :=
  ∀ ⦃final : Store⦄, d'.store.Extends final → ∀ x : Variable, x ∉ literals → x.kind ≠ .sequence →
    (final.readsOf d'.program).count x + (given.flatMap final.reach).count x +
        d.program.outputs.count x =
      (final.readsOf d.program).count x + (taken.flatMap final.reach).count x +
        d'.program.outputs.count x

/-- A sound draft goes over into another one, obeying the conservation law. -/
structure Leads (base : Store) (literals : List Variable) (d : Draft) (taken : List Variable)
    (d' : Draft) (given : List Variable) : Prop where
  /-- The draft grows. -/
  grows : d.Grows d'
  /-- It stays sound. -/
  sound : d'.Sound base literals
  /-- What is given back can be read. -/
  available : ∀ v ∈ given, d'.Available base literals v
  /-- Nothing is lost, and nothing is used twice. -/
  balanced : Balanced literals d taken d' given

variable {taken kept given : List Variable}

/-- One step after the other; what the first does not take waits for the second. -/
theorem Leads.trans {between : List Variable} (first : Leads base literals d taken d₁ between)
    (second : Leads base literals d₁ (between ++ kept) d' given) :
    Leads base literals d (taken ++ kept) d' given where
  grows := first.grows.trans second.grows
  sound := second.sound
  available := second.available
  balanced final h x new kind := by
    have one := first.balanced (second.grows.extends.trans h) x new kind
    have two := second.balanced h x new kind
    simp only [List.flatMap_append, List.count_append] at one two ⊢
    omega

/-- What is taken and given matters only up to order. -/
theorem Leads.perm {taken' given' : List Variable} (h : Leads base literals d taken d' given)
    (before : taken'.Perm taken) (after : given'.Perm given) :
    Leads base literals d taken' d' given' where
  grows := h.grows
  sound := h.sound
  available v mem := h.available v (after.mem_iff.1 mem)
  balanced final ext x new kind := by
    rw [(after.flatMap_right _).count_eq, (before.flatMap_right _).count_eq]
    exact h.balanced ext x new kind

/-- Giving back what is taken. -/
theorem Leads.refl (sound : d.Sound base literals)
    (available : ∀ v ∈ taken, d.Available base literals v) :
    Leads base literals d taken d taken :=
  ⟨.refl, sound, available, fun _ _ _ _ _ => rfl⟩

/-! ### New cells and operations -/

/-- The draft with one more intermediate variable. -/
def create (d : Draft) {kind : Kind} (value : kind.Content) : Draft :=
  { d with store := (d.store.allocate value).1, temporaries := d.temporaries + 1 }

theorem grows_create (d : Draft) {kind : Kind} (value : kind.Content) : d.Grows (d.create value) :=
  .tail (.single (.allocate d value)) (.count _ _)

/-- A new sequence takes its cells. -/
theorem leads_sequence (sound : d.Sound base literals) (value : IndexSequence)
    (available : ∀ v ∈ value.cells.map fun c => (⟨.integer, c⟩ : Variable),
      d.Available base literals v) :
    Leads base literals d (value.cells.map fun c => ⟨.integer, c⟩)
      (@create d .sequence value) [⟨.sequence, (@Store.allocate d.store .sequence value).2⟩] := by
  have grows : d.Grows (@create d .sequence value) := @grows_create d .sequence value
  -- the new variable, and what it reaches
  generalize new : (⟨.sequence, (@Store.allocate d.store .sequence value).2⟩ : Variable) = v
  have kind : v.kind = .sequence := by rw [← new]
  have has : (@create d .sequence value).store.Has v.cell := by
    rw [← new]
    exact @Store.has_allocate d.store .sequence value
  have reach :
      (@create d .sequence value).store.reach v = v :: value.cells.map (⟨.integer, ·⟩) := by
    have content := @Store.read_allocate_self d.store .sequence value
    rw [← new]
    simp only [Store.reach, create, content, Kind.cellsOf]
  refine ⟨grows, ?_, ?_, ?_⟩
  · refine sound.widen grows.extends (@Store.Closed.allocate _ sound.closed .sequence value ?_) rfl
      rfl
    intro c mem
    exact (available ⟨.integer, c⟩ (List.mem_map_of_mem mem)).has
  · intro w mem
    obtain rfl := List.mem_singleton.1 mem
    intro w reached
    rw [reach] at reached
    rcases List.mem_cons.1 reached with rfl | reached
    · exact ⟨has, .inr (.inr (.inl kind))⟩
    · have old := (available w reached).mono grows
      exact old w (Store.mem_reach_self _ w)
  · intro final ext x _ other
    have ne : v ≠ x := by
      rintro rfl
      exact other kind
    have integers : (value.cells.map fun c => (⟨.integer, c⟩ : Variable)).flatMap final.reach =
        value.cells.map fun c => ⟨.integer, c⟩ :=
      Store.flatMap_reach_of_kind fun v mem => by
        obtain ⟨c, -, rfl⟩ := List.mem_map.1 mem
        exact Kind.noConfusion
    rw [integers, List.flatMap_singleton, ext.reach has, reach, List.count_cons_of_ne ne]
    rfl

theorem outputs_emitting (d : Draft) (r : Recipe) : (d.emitting r).program.outputs =
    d.program.outputs ++ [⟨r.kind, (d.store.allocate r.kind.blank).2⟩] :=
  Program.outputs_append _ _

theorem readsOf_emitting (d : Draft) (r : Recipe) (final : Store) :
    final.readsOf (d.emitting r).program =
      final.readsOf d.program ++ r.term.operands.flatMap final.reach := by
  have last : final.readsOf [r.into (d.store.allocate r.kind.blank).2] =
      r.term.operands.flatMap final.reach := List.flatMap_singleton _ _
  rw [← last]
  exact Store.readsOf_append _ _ _

/-- An operation that reads what is there and defined keeps a draft sound. -/
theorem Sound.emitting (sound : d.Sound base literals) {r : Recipe} (kind : r.kind ≠ .sequence)
    (reads : ∀ v ∈ (d.emitting r).store.reads r.term,
      (d.emitting r).store.Has v.cell ∧ Defined base literals d.program v) :
    (d.emitting r).Sound base literals := by
  have wide : (d.create r.kind.blank).Sound base literals :=
    sound.widen (d.grows_create r.kind.blank).extends
      (sound.closed.allocate_blank r.kind) rfl rfl
  have fresh := d.store.not_has_allocate r.kind.blank
  refine ⟨wide.old, wide.closed, wide.literal, wide.constants, ?_, ?_, ?_⟩
  · rw [outputs_emitting]
    refine List.nodup_append.2 ⟨sound.nodup, by simp, fun w mem u last => ?_⟩
    rintro rfl
    obtain rfl := List.mem_singleton.1 last
    exact fresh (sound.outputs _ mem).1
  · rw [outputs_emitting]
    intro w mem
    rcases List.mem_append.1 mem with mem | last
    · exact wide.outputs w mem
    · obtain rfl := List.mem_singleton.1 last
      exact ⟨d.store.has_allocate r.kind.blank, fun old => fresh (sound.old.has old),
        fun literal => fresh (sound.literal _ literal).1, kind⟩
  · intro done op rest cut w mem
    rcases append_singleton_eq_iff.1 cut with ⟨-, rfl, rfl⟩ | ⟨rest, -, cut⟩
    · exact reads w mem
    · exact wide.ordered done op rest cut w mem

/-- A new operation takes its operands, and maybe literals that it does not read. -/
theorem leads_emitting (sound : d.Sound base literals) {r : Recipe} {a : List Variable}
    (kind : r.kind ≠ .sequence) (operands : taken.Perm (r.term.operands ++ a))
    (literal : ∀ v ∈ a, v ∈ literals ∧ v.kind ≠ .sequence)
    (available : ∀ v ∈ taken, d.Available base literals v) :
    Leads base literals d taken (d.emitting r)
      [⟨r.kind, (d.store.allocate r.kind.blank).2⟩] := by
  have grows : d.Grows (d.emitting r) :=
    ((d.grows_create r.kind.blank).tail (.emit _ _)).tail (.report _ _)
  have own : ∀ s : Store, s.reach ⟨r.kind, (d.store.allocate r.kind.blank).2⟩ =
      [⟨r.kind, (d.store.allocate r.kind.blank).2⟩] := fun s => Store.reach_of_kind kind
  refine ⟨grows, sound.emitting kind fun v mem => ?_, fun w mem u reached => ?_, ?_⟩
  · obtain ⟨w, operand, reached⟩ := List.mem_flatMap.1 mem
    have old := available w (operands.mem_iff.2 (List.mem_append_left _ operand))
    rw [grows.extends.reach old.has] at reached
    exact ⟨grows.extends.has (old v reached).1, (old v reached).2⟩
  · obtain rfl := List.mem_singleton.1 mem
    rw [own] at reached
    obtain rfl := List.mem_singleton.1 reached
    refine ⟨d.store.has_allocate r.kind.blank, .inr (.inr (.inr ?_))⟩
    rw [outputs_emitting]
    simp
  · -- the operands are now read, and in their place the output is held
    intro final ext x new kind
    have unread : (a.flatMap final.reach).count x = 0 := by
      rw [Store.flatMap_reach_of_kind fun v mem => (literal v mem).2]
      exact List.count_eq_zero.2 fun mem => new (literal x mem).1
    rw [readsOf_emitting, outputs_emitting, (operands.flatMap_right _).count_eq,
      List.flatMap_singleton, own]
    simp only [List.flatMap_append, List.count_append, unread]
    omega

end Draft

/-! ### Computations -/

namespace Build

variable {α β : Type}

/-- **A linear computation**: it takes the variables `taken`, and its answer stands for the
variables `given`. -/
def Linear (m : Build α) (taken : List Variable) (given : α → List Variable) : Prop :=
  ∀ ⦃base literals d a d'⦄, m d = .ok a d' → Draft.Sound base literals d →
    (∀ v ∈ taken, d.Available base literals v) → d.Leads base literals taken d' (given a)

variable {t k : List Variable} {g : α → List Variable}

theorem Linear.perm {m : Build α} {t' : List Variable} {g' : α → List Variable}
    (h : m.Linear t g) (before : t'.Perm t)
    (after : ∀ a, (g' a).Perm (g a)) : m.Linear t' g' := by
  intro base literals d a d' run sound available
  exact (h run sound fun v mem => available v (before.mem_iff.2 mem)).perm before (after a)

theorem Linear.of_count {m : Build α} {t' : List Variable} (h : m.Linear t g)
    (same : ∀ x, t'.count x = t.count x) : m.Linear t' g :=
  h.perm (List.perm_iff_count.2 same) fun _ => .refl _

/-- What the first part does not take is kept for the second. -/
theorem Linear.bind {x : Build α} {f : α → Build β} {r : β → List Variable}
    (hx : x.Linear t g) (hf : ∀ a, (f a).Linear (g a ++ k) r) :
    (x >>= f).Linear (t ++ k) r := by
  intro base literals d b d' run sound available
  obtain ⟨a, d₁, first, second⟩ := bind_eq_ok_iff.1 run
  have one := hx first sound fun v mem => available v (List.mem_append_left _ mem)
  refine one.trans (hf a second one.sound fun v mem => ?_)
  rcases List.mem_append.1 mem with mem | mem
  · exact one.available v mem
  · exact (available v (List.mem_append_right _ mem)).mono one.grows

/-- Nothing is kept. -/
theorem Linear.then {x : Build α} {f : α → Build β} {r : β → List Variable}
    (hx : x.Linear t g) (hf : ∀ a, (f a).Linear (g a) r) :
    (x >>= f).Linear t r := by
  have h := hx.bind (k := []) (f := f) (r := r) fun a => by simpa using hf a
  simpa using h

theorem linear_pure {a : α} (h : (g a).Perm t) : (pure a : Build α).Linear t g := by
  intro base literals d b d' run sound available
  obtain ⟨rfl, rfl⟩ := pure_eq_ok_iff.1 run
  exact (Draft.Leads.refl sound available).perm (.refl _) h

theorem linear_fail (cause : Malformed) : (fail cause : Build α).Linear t g := by
  intro base literals d b d' run
  exact absurd run fail_ne_ok

theorem linear_ofExcept {r : Except Malformed α} (h : ∀ a, r = .ok a → (g a).Perm t) :
    (ofExcept r).Linear t g := by
  cases r with
  | ok a => exact linear_pure (h a rfl)
  | error cause => exact linear_fail cause

theorem linear_ofOption {cause : Malformed} {o : Option α}
    (h : ∀ a, o = some a → (g a).Perm t) : (ofOption cause o).Linear t g := by
  cases o with
  | some a => exact linear_pure (h a rfl)
  | none => exact linear_fail cause

theorem linear_require (condition : Bool) (cause : Malformed) :
    (require condition cause).Linear [] fun _ => [] := by
  cases condition with
  | true => exact linear_pure (.refl _)
  | false => exact linear_fail cause

/-- A computation that first looks at the draft. -/
theorem linear_get {f : Draft → Build β} {r : β → List Variable}
    (h : ∀ d, (f d).Linear t r) : (get >>= f).Linear t r := by
  intro base literals d b d' run
  obtain ⟨_, _, start, rest⟩ := bind_eq_ok_iff.1 run
  obtain ⟨rfl, rfl⟩ := get_eq_ok_iff.1 start
  exact h _ rest

theorem linear_sequenceVariable (value : IndexSequence) :
    (sequenceVariable value).Linear (value.cells.map (⟨.integer, ·⟩)) fun v => [v] := by
  intro base literals d v d' run sound available
  rw [sequenceVariable_eq] at run
  cases run
  exact Draft.leads_sequence sound value available

/-- A recipe that reads what is taken. -/
theorem linear_emitRecipe {r : Except Malformed Recipe}
    (h : ∀ recipe, r = .ok recipe → recipe.kind ≠ .sequence ∧ t.Perm recipe.term.operands) :
    (emitRecipe r).Linear t fun v => [v] := by
  intro base literals d v d' run sound available
  obtain ⟨recipe, eq, rfl, rfl⟩ := emitRecipe_eq_ok_iff.1 run
  obtain ⟨kind, operands⟩ := h recipe eq
  refine Draft.leads_emitting sound (a := []) kind ?_ (by simp) available
  rwa [List.append_nil]

theorem linear_mapM {t : α → List Variable} {g : β → List Variable} {f : α → Build β}
    (xs : List α) (h : ∀ x ∈ xs, (f x).Linear (t x) g) :
    (xs.mapM f).Linear (xs.flatMap t) fun ys => ys.flatMap g := by
  induction xs with
  | nil => exact linear_pure (.refl _)
  | cons x xs ih =>
    rw [List.mapM_cons, List.flatMap_cons]
    refine (h x (by simp)).bind fun y => ?_
    refine ((ih fun z mem => h z (by simp [mem])).bind (k := g y) fun ys => ?_).perm
      List.perm_append_comm fun _ => .refl _
    refine linear_pure ?_
    rw [List.flatMap_cons]
    exact List.perm_append_comm

end Build

end MatrixCalc
