import MatrixCalc.Proofs.Recompilation.Whole

/-!
# A statement compiled in both stores

Where the second scope binds the names that the first binds, to corresponding variables, and no
others, two compilations of a statement stay in lockstep to the end: they declare the same name and
emit the same operations, or fail alike (`Recompilation.lockstep_compile`).
-/

namespace MatrixCalc

/-- The compiled statement with its cells renamed. -/
def Compiled.rename (ρ : Renaming) (compiled : Compiled) : Compiled :=
  ⟨compiled.program.map (Operation.rename ρ),
    compiled.declared.map fun entry => (entry.1, entry.2.rename ρ)⟩

namespace Operation

variable (ρ : Renaming)

theorem copy_rename_target (v target : Variable) :
    copy (v.rename ρ) (target.rename ρ) = (copy v target).map (rename ρ) := by
  rcases v with ⟨_ | _ | _ | _, x⟩ <;> rcases target with ⟨_ | _ | _ | _, y⟩ <;> rfl

theorem insert_rename_target (v : Variable) (m : Cell .matrix) (address : Address) :
    insert (v.rename ρ) (ρ .matrix m) (address.rename ρ) =
      (insert v m address).map (rename ρ) := by
  rcases v with ⟨_ | _ | _ | _, x⟩ <;> rfl

end Operation

namespace Recompilation

open Build Statement

variable {r : Recompilation}

/-! ### Steps -/

theorem follows_refl {ε α : Type} (x : Except ε α) : r.Follows x x fun a a' => a' = a := by
  cases x with
  | ok a => exact follows_ok rfl
  | error e => exact follows_error

theorem lockstep_record (e e' : Event) :
    r.Lockstep (record e) (record e') fun _ _ => True :=
  .of_eq fun _ _ alike => ⟨(), (), _, _, rfl, rfl, trivial, alike.report _ _⟩

theorem lockstep_allocate (kind : Kind) :
    r.Lockstep (allocate kind.blank) (allocate kind.blank) fun c c' =>
      c' = r.rename kind c ∧ ¬ r.old.Has c :=
  .of_eq fun d d' alike => ⟨_, _, _, _, allocate_eq kind.blank d, allocate_eq kind.blank d',
    ⟨(alike.rename_next _ _).symm, alike.not_has_next kind⟩, alike.allocate_blank kind⟩

variable (r) in
/-- Operations with corresponding operands and targets. -/
structure LikeLast (op op' : Operation) : Prop where
  eq : op' = op.rename r.rename
  known : ∀ v ∈ op.output :: op.term.operands, r.Known v.cell

theorem follows_last {ε : Type} {x x' : Except ε Operation}
    (eq : x' = x.map (Operation.rename r.rename))
    (known : ∀ op, x = .ok op → ∀ v ∈ op.output :: op.term.operands, r.Known v.cell) :
    r.Follows x x' r.LikeLast := by
  subst eq
  cases x with
  | ok op => exact follows_ok ⟨rfl, known op rfl⟩
  | error e => exact follows_error

/-- The last operation may write a cell that is not new. -/
theorem lockstep_last {op op' : Operation} (h : r.LikeLast op op') :
    r.Lockstep (emit op) (emit op') fun _ _ => True :=
  .of_eq fun d d' alike => ⟨_, _, _, _, emit_eq op d, emit_eq op' d', trivial,
    alike.emitted h.eq h.known⟩

theorem follows_copy {v v' target target' : Variable} (like : r.Like v v')
    (eq : target' = target.rename r.rename) (known : r.Known target.cell) :
    r.Follows (Operation.copy v target) (Operation.copy v' target') r.LikeLast := by
  rw [like.eq, eq]
  refine follows_last (Operation.copy_rename_target _ v target) fun op copied => ?_
  obtain ⟨operands, output⟩ := operands_of_copy copied
  rw [operands, output]
  exact List.forall_mem_cons.2 ⟨known, List.forall_mem_singleton.2 like.known⟩

theorem follows_insert {v v' : Variable} {m : Cell .matrix} {address address' : Address}
    (like : r.Like v v') (known : r.Known m) (places : r.LikeAddress address address') :
    r.Follows (Operation.insert v m address) (Operation.insert v' (r.rename .matrix m) address')
      r.LikeLast := by
  rw [like.eq, places.eq]
  refine follows_last (Operation.insert_rename_target _ v m address) fun op inserted => ?_
  obtain ⟨operands, output⟩ := operands_of_insert inserted
  rw [operands, output]
  simp only [List.forall_mem_cons]
  exact ⟨known, known, like.known, places.known⟩

/-! ### Assignments -/

theorem lockstep_target (left : List Token) :
    r.Lockstep (target left) (target left) fun name name' => name' = name := by
  unfold target
  cases targetName left with
  | ok name => exact lockstep_pure rfl
  | error e => exact lockstep_throw fun _ => ⟨e, rfl, .refl e⟩

section Scopes

variable {scope scope' : Bindings Variable} {macros : Bindings Macro} (mirror : r.mirror)
  (h : r.LikeScope scope scope' fun _ => True)
include mirror h

theorem lockstep_assignWhole (name : String) {v v' : Variable} (like : r.Like v v') :
    r.Lockstep (assignWhole scope name v) (assignWhole scope' name v') fun declared declared' =>
      declared' = declared.map fun entry => (entry.1, entry.2.rename r.rename) := by
  obtain rfl := like.eq
  unfold assignWhole
  cases found : scope.find? name with
  | some target =>
    obtain ⟨target', found', whole⟩ := h.bound name target trivial found
    rw [found']
    exact (lockstep_ofExcept (follows_copy like whole.eq whole.known)).bind fun _ _ op =>
      (lockstep_last op).bind fun _ _ _ => lockstep_pure rfl
  | none =>
    rw [h.unbound mirror name trivial found]
    refine (lockstep_allocate v.kind).bind fun c c' next => ?_
    obtain ⟨rfl, new⟩ := next
    exact (lockstep_ofExcept (follows_copy like rfl (known_of_new new))).bind fun _ _ op =>
      (lockstep_last op).bind fun _ _ _ => lockstep_pure rfl

theorem lockstep_assignPlaces (name : String) (left : List Token) {v v' : Variable}
    (like : r.Like v v') : r.Lockstep (assignPlaces scope macros name left v)
      (assignPlaces scope' macros name left v') fun _ _ => True := by
  unfold assignPlaces
  cases found : scope.find? name with
  | none =>
    rw [h.unbound mirror name trivial found]
    exact lockstep_throw fun _ => ⟨_, rfl, .refl _⟩
  | some target =>
    obtain ⟨target', found', whole⟩ := h.bound name target trivial found
    have known := whole.known
    rw [found', whole.eq]
    rcases target with ⟨_ | _ | _ | _, m⟩
    case matrix =>
      refine (lockstep_ofExcept (follows_refl _)).bind fun inside _ same => ?_
      rw [same]
      exact (lockstep_prepare (h.mono fun _ _ => trivial)).bind fun _ _ items =>
        (lockstep_address (lockstep_block maxNesting) items).bind fun _ _ places =>
          (lockstep_ofExcept (follows_insert like known places)).bind fun _ _ op =>
            (lockstep_last op).bind fun _ _ _ => lockstep_pure trivial
    all_goals exact lockstep_fail

theorem lockstep_assign (name : String) (left : List Token) {v v' : Variable} (like : r.Like v v') :
    r.Lockstep (assign scope macros name left v) (assign scope' macros name left v')
      fun declared declared' =>
        declared' = declared.map fun entry => (entry.1, entry.2.rename r.rename) := by
  unfold assign
  split
  · exact lockstep_assignWhole mirror h name like
  · exact (lockstep_assignPlaces mirror h name left like).bind fun _ _ _ => lockstep_pure rfl

/-- **A statement compiled in both stores** has the same program up to the names of cells, and
declares the same name, or fails alike. -/
theorem lockstep_compile (tokens : List Token) :
    r.Lockstep (compile scope macros tokens) (compile scope' macros tokens)
      fun compiled compiled' => compiled' = compiled.rename r.rename ∧
        ∀ op ∈ compiled.program, ∀ v ∈ op.output :: op.term.operands, r.Known v.cell := by
  refine (lockstep_ofExcept (follows_refl _)).bind fun _ cut same => ?_
  subst same
  refine (lockstep_require rfl).bind fun _ _ _ => (lockstep_target _).bind fun _ name same => ?_
  subst same
  refine (lockstep_value (h.mono fun _ _ => trivial)).bind fun v v' like =>
    (lockstep_assign mirror h name _ like).bind fun declared _ same => ?_
  subst same
  refine lockstep_get fun d d' alike => (lockstep_record _ _).bind fun _ _ _ =>
    (lockstep_record _ _).bind fun _ _ _ => lockstep_pure ⟨?_, alike.known⟩
  rw [Compiled.rename, alike.program]

end Scopes

end Recompilation

end MatrixCalc
