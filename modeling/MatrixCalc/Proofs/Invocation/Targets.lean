import MatrixCalc.Proofs.Invocation.Performed

/-!
# Statements that assign alike

Two statements are performed whose texts are the same, except that names stand in the second one for
tokens of the first.  If the names mean what these tokens stand for, then both statements leave
their target with the same meaning.

* `Comparison.sense_of_last` : like operations leave what means the same.
* `Statement.Beside` : the parts of two statements of which the second has names.
* `Statement.Performed.exists_last` : the last operations are the two names of one operation.
* `Statement.Performed.sense_eq` : **statements that resemble each other assign alike.**
-/

namespace MatrixCalc

open Build MatrixCalc.Group

/-! ### The last operation -/

/-- Copying renamed variables is a renamed operation. -/
theorem Operation.copy_pair (ρ : Renaming) (v target : Variable) :
    copy (v.rename ρ) (target.rename ρ) = (copy v target).map (Operation.rename ρ) := by
  rcases v with ⟨_ | _ | _ | _, x⟩ <;> rcases target with ⟨_ | _ | _ | _, y⟩ <;> rfl

/-- So is inserting. -/
theorem Operation.insert_pair (ρ : Renaming) (v : Variable) (m : Cell .matrix) (address : Address) :
    insert (v.rename ρ) (ρ .matrix m) (address.rename ρ) =
      (insert v m address).map (Operation.rename ρ) := by
  rcases v with ⟨_ | _ | _ | _, x⟩ <;> rfl

namespace Comparison

variable {r : Comparison} {p : Stage}

/-- Like operations leave what means the same. -/
theorem sense_of_last {s s' : Store} {o a b : Operation}
    (agree : ∀ u ∈ o.term.operands, s.Agrees s' u) (first : a = o.rename .first)
    (second : b = o.rename .second) {x : a.kind.Content} {y : b.kind.Content}
    (eval : a.term.eval s = .ok x) (eval' : b.term.eval s' = .ok y) (has : s.Has a.target)
    (has' : s'.Has b.target) :
    (s'.write b.target y).sense b.output = (s.write a.target x).sense a.output := by
  subst first second
  have equal := o.term.meaning_eval_pair agree
  rw [show (o.term.rename .first).eval s = .ok x from eval,
    show (o.term.rename .second).eval s' = .ok y from eval'] at equal
  have same : o.kind.meaning s'.read y = o.kind.meaning s.read x := Except.ok.inj equal
  show (⟨o.kind, _⟩ : Sense) = ⟨o.kind, _⟩
  congr 1
  exact (Recompilation.Rerun.meaning_write has' y).trans
    (same.trans (Recompilation.Rerun.meaning_write has x).symm)

/-- Copies of like variables to variables of one kind are the two names of a copy. -/
theorem exists_copy {v v' target target' : Variable} (alike : r.Alike p v v')
    (passes : r.Passes p) (kind : target.kind = target'.kind) {a b : Operation}
    (copied : Operation.copy v target = .ok a) (copied' : Operation.copy v' target' = .ok b) :
    ∃ o : Operation, a = o.rename .first ∧ b = o.rename .second ∧
      ∀ u ∈ o.term.operands, r.first.store.Agrees r.second.store u := by
  obtain ⟨w, -, -, agrees⟩ := alike
  obtain ⟨k, c⟩ := target
  obtain ⟨k', c'⟩ := target'
  obtain rfl : k = k' := kind
  have one := Operation.copy_pair .first w ⟨k, c.pair c'⟩
  have two := Operation.copy_pair .second w ⟨k, c.pair c'⟩
  simp only [Variable.rename, Renaming.first_pair, Renaming.second_pair] at one two copied copied'
  rw [copied] at one
  rw [copied'] at two
  cases made : Operation.copy w ⟨k, c.pair c'⟩ with
  | error e =>
    rw [made] at one
    cases one
  | ok o =>
    rw [made] at one two
    refine ⟨o, Except.ok.inj one, Except.ok.inj two, fun u mem => ?_⟩
    rw [(Statement.operands_of_copy made).1] at mem
    obtain rfl := List.mem_singleton.1 mem
    exact agrees passes

/-- The same of values that are inserted at like addresses. -/
theorem exists_insert {v v' : Variable} {m : Cell .matrix} {address address' : Address}
    (alike : r.Alike p v v') (places : r.LikeAddress p address address') (passes : r.Passes p)
    (same : r.second.store.read m = r.first.store.read m) {a b : Operation}
    (inserted : Operation.insert v m address = .ok a)
    (inserted' : Operation.insert v' m address' = .ok b) :
    ∃ o : Operation, a = o.rename .first ∧ b = o.rename .second ∧
      ∀ u ∈ o.term.operands, r.first.store.Agrees r.second.store u := by
  obtain ⟨w, -, -, agrees⟩ := alike
  obtain ⟨place, agrees'⟩ := places
  have one := Operation.insert_pair .first w (m.pair m) place
  have two := Operation.insert_pair .second w (m.pair m) place
  simp only [Renaming.first_pair, Renaming.second_pair] at one two
  rw [inserted] at one
  rw [inserted'] at two
  cases made : Operation.insert w (m.pair m) place with
  | error e =>
    rw [made] at one
    cases one
  | ok o =>
    rw [made] at one two
    refine ⟨o, Except.ok.inj one, Except.ok.inj two, fun u mem => ?_⟩
    rw [(Statement.operands_of_insert made).1] at mem
    rcases List.mem_cons.1 mem with rfl | mem
    · show r.second.store.meaning _ = r.first.store.meaning _
      rw [Renaming.first_pair, Renaming.second_pair]
      exact same
    · rcases List.mem_cons.1 mem with rfl | mem
      · exact agrees passes
      · exact agrees' passes u mem

end Comparison

/-! ### Statements side by side -/

/-- Texts that resemble each other expand to texts that correspond. -/
theorem Macro.Standins.Resembles.expands {table : Bindings Macro} {w : Standins table}
    {behind : Bool} {ts ts' expanded expanded' : List Token} (h : w.Resembles behind ts ts')
    (declared : table.isEmpty = false) (run : Statement.Expands table ts expanded)
    (run' : Statement.Expands table ts' expanded') : w.Corresponds expanded expanded' := by
  obtain ⟨_, _, run⟩ := run
  obtain ⟨_, _, run'⟩ := run'
  have first := unfolds_of_expand declared run
  rw [← List.append_nil ts] at first
  obtain ⟨y, z, rfl, corresponds, nothing⟩ :=
    h.unfolds apart_nil first (unfolds_of_expand declared run')
  rwa [nothing.of_nil, List.append_nil]

namespace Statement

/-- Names stand in the parts of the second statement for tokens of the first: in its right side, and
between the brackets of its target. -/
structure Beside {table : Bindings Macro} (w : Macro.Standins table)
    (left right left' right' : List Token) : Prop where
  /-- The right sides resemble each other. -/
  values : w.Resembles false right right'
  /-- Both targets are whole variables, or none of them. -/
  whole : left.length = 1 ↔ left'.length = 1
  /-- What stands between the brackets of the targets resembles each other. -/
  places : ∀ inside inside', targetIndices left = .ok inside →
    targetIndices left' = .ok inside' → w.Resembles false inside inside'

section

variable {s t s' t' : Session} {tokens tokens' : List Token} (p : Performed s tokens s')
  (q : Performed t tokens' t') (declared : s.macros.isEmpty = false) (macros : t.macros = s.macros)
  {w : Macro.Standins s.macros} (names : p.side.Interprets w s.scope q.side.start t.scope)
include names

/-- If one of two like values is assigned to a whole variable, so that it is bound to a name, and
the other one to a variable of this name, then the variables have the same kind. -/
theorem Performed.kind_eq {v v' target target' : Variable} (kinds : v.kind = v'.kind)
    (free : s.scope.find? p.name = none → t.scope.find? p.name = none)
    (found : s.scope.find? p.name = some target ∨ s.scope.find? p.name = none ∧
      target.kind = v.kind ∧ ¬ s.store.Has target.cell)
    (found' : t.scope.find? p.name = some target' ∨ t.scope.find? p.name = none ∧
      target'.kind = v'.kind ∧ ¬ t.store.Has target'.cell) : target.kind = target'.kind := by
  rcases found with bound | ⟨unbound, kind, -⟩
  · have bound' := (names.bound _ _ bound).2
    rcases found' with again | ⟨unbound', -⟩
    · cases bound'.symm.trans again
      rfl
    · cases bound'.symm.trans unbound'
  · rcases found' with bound' | ⟨-, kind', -⟩
    · cases (free unbound).symm.trans bound'
    · rw [kind, kind', kinds]

include declared macros

/-- The values of both statements are alike, and what is noted in both is right. -/
theorem Performed.alike_values (right : w.Resembles false p.right q.right) :
    (⟨p.side, q.side⟩ : Comparison).Alike ⟨p.valued, q.valued⟩ p.value q.value ∧
      p.side.Honest p.valued ∧ q.side.Honest q.valued := by
  have expands := q.expands
  rw [macros] at expands
  have like : (⟨p.side, q.side⟩ : Comparison).LikeItems ⟨p.read, q.read⟩ p.items q.items :=
    Comparison.likeItems names (right.expands declared p.expands expands) p.reading q.reading
  obtain ⟨leads, related⟩ := @Comparison.lockstep_single _ ⟨p.read, q.read⟩ maxNesting maxNesting
    (fun like => Comparison.lockstep_block _ _ like) _ _ (.items like) (some p.value)
    (some q.value) ⟨p.valued, q.valued⟩ p.resolved q.resolved
  obtain alike | _ := related
  exact ⟨alike, p.honest.of_resolves leads.first, q.honest.of_resolves leads.second⟩

/-- Like tokens between the brackets of the targets are like addresses. -/
theorem Performed.like_addresses {inside inside' expanded expanded' : List Token}
    {before before' read read' : Draft} {items items' : List Item} {address address' : Address}
    (places : w.Resembles false inside inside') (expands : Expands s.macros inside expanded)
    (expands' : Expands t.macros inside' expanded')
    (reading : p.side.Reading s.scope expanded before items read)
    (reading' : q.side.Reading t.scope expanded' before' items' read')
    (addressed : Group.address (block maxNesting) items read = .ok address p.side.draft)
    (addressed' : Group.address (block maxNesting) items' read' = .ok address' q.side.draft)
    (honest : p.side.Honest before) (honest' : q.side.Honest before') :
    (⟨p.side, q.side⟩ : Comparison).LikeAddress ⟨p.side.draft, q.side.draft⟩ address address' ∧
      (⟨p.side, q.side⟩ : Comparison).Passes ⟨p.side.draft, q.side.draft⟩ := by
  rw [macros] at expands'
  have like := Comparison.likeItems (r := ⟨p.side, q.side⟩) names
    (places.expands declared expands expands') reading reading'
  obtain ⟨leads, alike⟩ := @Comparison.lockstep_address _ _ maxNesting maxNesting
    (fun like => Comparison.lockstep_block _ _ like) _ _ (.items like) _ _
    ⟨p.side.draft, q.side.draft⟩ addressed addressed'
  exact ⟨alike, ⟨.refl, (reading.honest honest).of_resolves leads.first⟩,
    ⟨.refl, (reading'.honest honest').of_resolves leads.second⟩⟩

/-- The last operations of statements that resemble each other are the two names of one operation,
whose operands mean the same. -/
theorem Performed.exists_last (name : q.name = p.name)
    (free : s.scope.find? p.name = none → t.scope.find? p.name = none)
    (beside : Beside w p.left p.right q.left q.right) :
    ∃ o : Operation, p.last = o.rename .first ∧ q.last = o.rename .second ∧
      ∀ u ∈ o.term.operands, p.side.store.Agrees q.side.store u := by
  obtain ⟨alike, honest, honest'⟩ := p.alike_values q declared macros names beside.values
  rcases p.assigned with ⟨single, -, found, copied⟩ |
    ⟨many, found, indices, expands, resolves, reading, addressed, inserted⟩
  · rcases q.assigned with ⟨-, -, found', copied'⟩ | ⟨many', -⟩
    · rw [name] at found'
      exact Comparison.exists_copy alike ⟨⟨p.grows, honest⟩, ⟨q.grows, honest'⟩⟩
        (p.kind_eq q names alike.sense.2.1 free found found') copied copied'
    · exact absurd (beside.whole.1 single) many'
  · rcases q.assigned with ⟨single', -⟩ |
      ⟨-, found', indices', expands', resolves', reading', addressed', inserted'⟩
    · exact absurd (beside.whole.2 single') many
    · have bound := names.bound _ _ found
      rw [name] at found'
      cases bound.2.symm.trans found'
      obtain ⟨address, passes⟩ := p.like_addresses q declared macros names
        (beside.places _ _ indices indices') expands expands' reading reading' addressed addressed'
        (honest.of_resolves resolves) (honest'.of_resolves resolves')
      -- the matrix was there before
      have same := ((names.larger.trans q.side.kept).read bound.1).trans
        (p.side.kept.read bound.1).symm
      exact Comparison.exists_insert (Comparison.lasting_alike
        (p := ⟨p.valued, q.valued⟩) ⟨p.grows, q.grows⟩ alike) address passes same inserted
        inserted'

/-- **Statements that resemble each other assign alike**, if names mean what they stand for. -/
theorem Performed.sense_eq (name : q.name = p.name)
    (free : s.scope.find? p.name = none → t.scope.find? p.name = none)
    (beside : Beside w p.left p.right q.left q.right) :
    t'.store.sense q.last.output = s'.store.sense p.last.output := by
  obtain ⟨o, first, second, agree⟩ :=
    p.exists_last q declared macros names name free beside
  rw [p.store, q.store]
  exact Comparison.sense_of_last agree first second p.computed q.computed p.has q.has

end

end Statement

end MatrixCalc
