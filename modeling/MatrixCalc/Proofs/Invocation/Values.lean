import MatrixCalc.Proofs.Compilation
import MatrixCalc.Proofs.Invocation.Expansion
import MatrixCalc.Proofs.Invocation.Groups

/-!
# What tokens stand for

In one statement stand tokens, in another one a name in their place.  If the name is bound to a
variable that means what the tokens stand for, then both statements read like items, and so all
that is compiled from them is alike.

* `Store.sense` : the kind and the meaning of a variable.
* `Side.Denotes`, `Side.Yields` : what a token, and what a group, stands for in a statement.
* `Comparison.likeItems` : **texts that correspond are read as like items.**
* `Comparison.yields`, `Comparison.denotes` : what has a value in one statement stands for that
  value in the other.
-/

namespace MatrixCalc

open Build MatrixCalc.Group

/-! ### Kinds and meanings -/

/-- A kind, and what a variable of that kind means. -/
abbrev Sense : Type := (kind : Kind) × kind.Meaning

/-- What a variable means, with its kind. -/
def Store.sense (s : Store) (v : Variable) : Sense := ⟨v.kind, s.meaning v.cell⟩

/-- What is there already goes on to mean the same. -/
theorem Store.Extends.sense {s s' : Store} (h : s.Extends s') (closed : s.Closed)
    {v : Variable} (has : s.Has v.cell) : s'.sense v = s.sense v := by
  have same : s'.meaning v.cell = s.meaning v.cell := by
    rw [Store.meaning, Store.meaning, h.read has]
    exact Kind.meaning_congr _ fun c mem => h.read (closed v has c mem)
  rw [Store.sense, Store.sense, same]

namespace Comparison

variable {r : Comparison} {p : Stage} {v v' : Variable}

theorem alike_of_sense (has : p.first.store.Has v.cell) (has' : p.second.store.Has v'.cell)
    (kind : v.kind = v'.kind)
    (same : r.Passes p → r.first.store.sense v = r.second.store.sense v') :
    r.Alike p v v' := by
  obtain ⟨k, c⟩ := v
  obtain ⟨k', c'⟩ := v'
  obtain rfl : k = k' := kind
  exact alike_of_meaning has has' fun passes => (eq_of_heq (Sigma.mk.inj (same passes)).2).symm

/-- Like variables are there, and denote the same. -/
theorem Alike.sense (h : r.Alike p v v') : p.first.store.Has v.cell ∧ v.kind = v'.kind ∧
    (r.Passes p → r.first.store.sense v = r.second.store.sense v') := by
  obtain ⟨w, has, -, agrees⟩ := h
  exact ⟨has, rfl, fun passes => congrArg (Sigma.mk w.kind) (agrees passes).symm⟩

end Comparison

/-! ### Reading tokens -/

section Tokens

variable {scope : Bindings Variable} {d d' : Draft} {items : List Item}

theorem Item.ofTokens_cons_eq_ok_iff {t : Token} {ts : List Token} :
    ofTokens scope (t :: ts) d = .ok items d' ↔ ∃ item d₁ more, ofToken scope t d = .ok item d₁ ∧
      ofTokens scope ts d₁ = .ok more d' ∧ items = item :: more := by
  simp only [ofTokens, bind_eq_ok_iff, pure_eq_ok_iff]
  constructor
  · rintro ⟨item, d₁, first, more, _, second, rfl, rfl⟩
    exact ⟨item, d₁, more, first, second, rfl⟩
  · rintro ⟨item, d₁, more, first, second, rfl⟩
    exact ⟨item, d₁, first, more, d', second, rfl, rfl⟩

theorem Item.ofTokens_append_eq_ok_iff {ts us : List Token} :
    ofTokens scope (ts ++ us) d = .ok items d' ↔ ∃ first d₁ second,
      ofTokens scope ts d = .ok first d₁ ∧ ofTokens scope us d₁ = .ok second d' ∧
      items = first ++ second := by
  induction ts generalizing d items with
  | nil =>
    simp only [List.nil_append, ofTokens, pure_eq_ok_iff]
    constructor
    · intro run
      exact ⟨[], d, items, ⟨rfl, rfl⟩, run, rfl⟩
    · rintro ⟨_, _, second, ⟨rfl, rfl⟩, run, rfl⟩
      exact run
  | cons t ts ih =>
    simp only [List.cons_append, ofTokens_cons_eq_ok_iff, ih]
    constructor
    · rintro ⟨item, d₁, _, one, ⟨first, d₂, second, two, three, rfl⟩, rfl⟩
      exact ⟨item :: first, d₂, second, ⟨item, d₁, first, one, two, rfl⟩, three, rfl⟩
    · rintro ⟨_, d₂, second, ⟨item, d₁, first, one, two, rfl⟩, three, rfl⟩
      exact ⟨item, d₁, first ++ second, one, ⟨first, d₂, second, two, three, rfl⟩, rfl⟩

/-- A symbol is read as a symbol, and nothing else is. -/
theorem Item.symbol_of_ofToken {t : Token} {item : Item} (run : ofToken scope t d = .ok item d') :
    symbol? item = symbol? t := by
  cases t with
  | symbol s =>
    obtain ⟨rfl, -⟩ := pure_eq_ok_iff.1 run
    rfl
  | word name =>
    obtain ⟨-, ⟨v, -, rfl⟩ | ⟨-, f, -, rfl⟩⟩ := ofToken_word_eq_ok_iff.1 run <;> rfl
  | integer | double =>
    simp only [ofToken, bind_eq_ok_iff, pure_eq_ok_iff] at run
    obtain ⟨v, _, -, rfl, -⟩ := run
    rfl

/-- What is noted as a literal is new, and holds its value. -/
theorem Item.constants_ofTokens {ts : List Token} (run : ofTokens scope ts d = .ok items d') :
    ∀ entry ∈ d'.constants, entry ∈ d.constants ∨ d'.store.Has entry.1 ∧ ¬ d.store.Has entry.1 ∧
      d'.store.read entry.1 = entry.2 := by
  induction ts generalizing d items with
  | nil =>
    obtain ⟨-, rfl⟩ := pure_eq_ok_iff.1 run
    exact fun _ => .inl
  | cons t ts ih =>
    obtain ⟨item, d₁, more, first, second, rfl⟩ := ofTokens_cons_eq_ok_iff.1 run
    have before := ((growing_ofToken scope t).of_ok first).extends
    have after := ((growing_ofTokens scope ts).of_ok second).extends
    intro entry mem
    rcases ih second entry mem with mem | ⟨has, new, holds⟩
    · -- the first token may be an integer
      cases t with
      | integer n =>
        simp only [ofToken, bind_eq_ok_iff, pure_eq_ok_iff] at first
        obtain ⟨v, _, made, rfl, rfl⟩ := first
        rw [integerLiteral_eq] at made
        cases made
        rcases List.mem_cons.1 mem with rfl | mem
        · have has := @Store.has_allocate d.store .integer n
          exact .inr ⟨after.has has, @Store.not_has_allocate d.store .integer n,
            (after.read has).trans (@Store.read_allocate_self d.store .integer n)⟩
        · exact .inl mem
      | double x =>
        simp only [ofToken, bind_eq_ok_iff, pure_eq_ok_iff] at first
        obtain ⟨v, _, made, rfl, rfl⟩ := first
        rw [doubleLiteral_eq] at made
        cases made
        exact .inl mem
      | symbol s =>
        obtain ⟨-, rfl⟩ := pure_eq_ok_iff.1 first
        exact .inl mem
      | word name =>
        obtain ⟨rfl, -⟩ := ofToken_word_eq_ok_iff.1 first
        exact .inl mem
    · exact .inr ⟨has, fun old => new (before.has old), holds⟩

/-- A function that is not called has no value. -/
theorem Group.single_function_ne_ok {n : Nat} {f : Builtin} {o : Option Variable} :
    single (block n) [.function f] d ≠ .ok o d' := by
  intro run
  obtain ⟨vs, _, resolved, -⟩ := bind_eq_ok_iff.1 run
  cases n with
  | zero => exact fail_ne_ok resolved
  | succ n =>
    have walked : resolveAll (block n) [] [.function f] = pure [.function f] := by
      rw [resolveAll_neutral rfl, resolveAll]
      rfl
    obtain ⟨_, _, walk, more⟩ := bind_eq_ok_iff.1 resolved
    rw [walked] at walk
    obtain ⟨rfl, rfl⟩ := pure_eq_ok_iff.1 walk
    obtain ⟨_, _, checked, -⟩ := bind_eq_ok_iff.1 more
    exact fail_ne_ok checked

end Tokens

/-! ### Statements that read tokens -/

namespace Side

variable (x : Side)

/-- Cells that are in the second draft and not in the first one are not overwritten. -/
def Keeps (d d' : Draft) : Prop :=
  ∀ v : Variable, d'.store.Has v.cell → ¬ d.store.Has v.cell →
    x.store.read v.cell = d'.store.read v.cell

/-- The statement reads the tokens, which become the items; literals among them stay what they
are. -/
structure Reading (scope : Bindings Variable) (tokens : List Token) (d : Draft)
    (items : List Item) (d' : Draft) : Prop where
  /-- The statement has begun. -/
  larger : x.start.Extends d.store
  /-- The tokens become the items. -/
  run : Item.ofTokens scope tokens d = .ok items d'
  /-- No literal is overwritten. -/
  keeps : x.Keeps d d'

/-- Literals noted in the draft are what they were. -/
def Honest (d : Draft) : Prop := ∀ entry ∈ d.constants, x.store.read entry.1 = entry.2

/-- The token stands for a variable of that meaning, wherever the statement reads it. -/
def Denotes (scope : Bindings Variable) (t : Token) (μ : Sense) : Prop :=
  ∀ ⦃d item d'⦄, x.Reading scope [t] d [item] d' → ∃ v, item = .value v ∧ d'.store.Has v.cell ∧
    v.kind = μ.1 ∧ (x.Passes d' → x.store.sense v = μ)

/-- The tokens stand for a variable of that meaning, wherever the statement reads them as a group of
their own. -/
def Yields (scope : Bindings Variable) (tokens : List Token) (μ : Sense) : Prop :=
  ∀ ⦃d items d'⦄, x.Reading scope tokens d items d' → Item.Plain items ∧
    ∀ ⦃n e o e'⦄, d'.Grows e → single (block n) items e = .ok o e' → e.Resolves e' ∧
      ∃ v, o = some v ∧ e'.store.Has v.cell ∧ v.kind = μ.1 ∧
        (x.Passes e' → x.store.sense v = μ)

variable {x} {scope : Bindings Variable} {ts us : List Token} {d d' : Draft} {items : List Item}

theorem Keeps.of_extends {d₁ d₂ : Draft} (h : x.Keeps d d') (before : d.store.Extends d₁.store)
    (after : d₂.store.Extends d'.store) : x.Keeps d₁ d₂ := fun v has new =>
  (h v (after.has has) fun old => new (before.has old)).trans (after.read has)

/-- A statement that reads a text reads the parts of it. -/
theorem Reading.append (h : x.Reading scope (ts ++ us) d items d') : ∃ first d₁ second,
    x.Reading scope ts d first d₁ ∧ x.Reading scope us d₁ second d' ∧ items = first ++ second := by
  obtain ⟨first, d₁, second, one, two, rfl⟩ := Item.ofTokens_append_eq_ok_iff.1 h.run
  have before := ((Item.growing_ofTokens scope ts).of_ok one).extends
  have after := ((Item.growing_ofTokens scope us).of_ok two).extends
  exact ⟨first, d₁, second, ⟨h.larger, one, h.keeps.of_extends (.refl _) after⟩,
    ⟨h.larger.trans before, two, h.keeps.of_extends before (.refl _)⟩, rfl⟩

theorem Reading.cons {t : Token} (h : x.Reading scope (t :: ts) d items d') : ∃ item d₁ more,
    x.Reading scope [t] d [item] d₁ ∧ x.Reading scope ts d₁ more d' ∧ items = item :: more := by
  have h : x.Reading scope ([t] ++ ts) d items d' := h
  obtain ⟨first, d₁, more, one, two, rfl⟩ := h.append
  obtain ⟨item, _, _, -, nothing, rfl⟩ := Item.ofTokens_cons_eq_ok_iff.1 one.run
  obtain ⟨rfl, -⟩ := pure_eq_ok_iff.1 nothing
  exact ⟨item, d₁, more, one, two, rfl⟩

theorem Reading.grows (h : x.Reading scope ts d items d') : d.Grows d' :=
  (Item.growing_ofTokens scope ts).of_ok h.run

theorem Reading.honest (h : x.Reading scope ts d items d') (before : x.Honest d) :
    x.Honest d' := by
  intro entry mem
  rcases Item.constants_ofTokens h.run entry mem with mem | ⟨has, new, holds⟩
  · exact before entry mem
  · exact (h.keeps ⟨.integer, entry.1⟩ has new).trans holds

theorem Reading.ofToken {t : Token} {item : Item} (h : x.Reading scope [t] d [item] d') :
    Item.ofToken scope t d = .ok item d' := by
  obtain ⟨_, _, _, run, nothing, eq⟩ := Item.ofTokens_cons_eq_ok_iff.1 h.run
  obtain ⟨rfl, rfl⟩ := pure_eq_ok_iff.1 nothing
  cases eq
  exact run

/-- Brackets around tokens are brackets around their items. -/
theorem Reading.parenthesize (h : x.Reading scope (Macro.parenthesize ts) d items d') : ∃ inner,
    x.Reading scope ts d inner d' ∧ items = Item.parenthesize inner := by
  have bracket : ∀ {s : Symbol} {d item d'}, x.Reading scope [.symbol s] d [item] d' →
      d = d' ∧ item = .symbol s := fun read => by
    obtain ⟨rfl, rfl⟩ := pure_eq_ok_iff.1 read.ofToken
    exact ⟨rfl, rfl⟩
  have h : x.Reading scope (.symbol .parenLeft :: (ts ++ [.symbol .parenRight])) d items d' := h
  obtain ⟨_, _, more, first, rest, rfl⟩ := h.cons
  obtain ⟨inner, _, _, inside, last, rfl⟩ := rest.append
  obtain ⟨_, _, _, close, nothing, rfl⟩ := last.cons
  obtain ⟨rfl, rfl⟩ := pure_eq_ok_iff.1 nothing.run
  obtain ⟨rfl, rfl⟩ := bracket first
  obtain ⟨rfl, rfl⟩ := bracket close
  exact ⟨inner, inside, rfl⟩

/-- An integer or a double is what it says. -/
theorem Reading.literal {t : Token} {item : Item} (h : x.Reading scope [t] d [item] d') :
    (∀ n, t = .integer n → ∃ c : Cell .integer, item = .value ⟨.integer, c⟩ ∧ d'.store.Has c ∧
      x.store.read c = n) ∧
    ∀ y, t = .double y → ∃ c : Cell .double, item = .value ⟨.double, c⟩ ∧ d'.store.Has c ∧
      x.store.read c = y := by
  have run := h.ofToken
  constructor
  · rintro n rfl
    simp only [Item.ofToken, bind_eq_ok_iff, pure_eq_ok_iff] at run
    obtain ⟨v, _, made, rfl, rfl⟩ := run
    rw [integerLiteral_eq] at made
    cases made
    have has := @Store.has_allocate d.store .integer n
    exact ⟨_, rfl, has,
      (h.keeps ⟨.integer, _⟩ has (@Store.not_has_allocate d.store .integer n)).trans
        (@Store.read_allocate_self d.store .integer n)⟩
  · rintro y rfl
    simp only [Item.ofToken, bind_eq_ok_iff, pure_eq_ok_iff] at run
    obtain ⟨v, _, made, rfl, rfl⟩ := run
    rw [doubleLiteral_eq] at made
    cases made
    have has := @Store.has_allocate d.store .double y
    exact ⟨_, rfl, has, (h.keeps ⟨.double, _⟩ has (@Store.not_has_allocate d.store .double y)).trans
      (@Store.read_allocate_self d.store .double y)⟩

theorem Honest.of_resolves (h : x.Honest d) (resolves : d.Resolves d') : x.Honest d' := by
  intro entry mem
  rw [resolves.constants] at mem
  exact h entry mem

/-- What was there before a statement goes on to mean the same. -/
theorem sense_start {v : Variable} (has : x.start.Has v.cell) :
    x.store.sense v = x.start.sense v := x.kept.sense x.closed has

end Side

/-! ### Names -/

section Names

variable {table : Bindings Macro} (w : Macro.Standins table)

/-- Names have in a later session, with the store `s'`, the meaning that they have in the statement,
or that of what they stand for. -/
structure Side.Interprets (x : Side) (scope : Bindings Variable) (s' : Store)
    (scope' : Bindings Variable) : Prop where
  /-- The store has only got more cells. -/
  larger : x.start.Extends s'
  /-- Names are bound as they were. -/
  bound : ∀ name v, scope.find? name = some v → x.start.Has v.cell ∧ scope'.find? name = some v
  /-- No function is bound. -/
  builtin : ∀ name v, scope'.find? name = some v → Builtin.ofName? name = none
  /-- A name that stands for a token means what the token stands for. -/
  token : ∀ {t name}, w.token t name → ∃ v, scope'.find? name = some v ∧ s'.Has v.cell ∧
    x.Denotes scope t (s'.sense v)
  /-- A name that stands for a group means what the group stands for. -/
  group : ∀ {inside name}, w.yields inside name → ∃ v, scope'.find? name = some v ∧
    s'.Has v.cell ∧ x.Yields scope inside (s'.sense v)

end Names

namespace Comparison

variable {r : Comparison} {table : Bindings Macro} {w : Macro.Standins table}
  {scope scope' : Bindings Variable} {ts ts' : List Token} {d d' e e' : Draft}
  {items items' : List Item}
  (names : r.first.Interprets w scope r.second.start scope')
include names

/-- The same token is read alike. -/
theorem likeItem {t : Token} {item item' : Item} (read : r.first.Reading scope [t] d [item] d')
    (read' : r.second.Reading scope' [t] e [item'] e') : r.LikeItem ⟨d', e'⟩ item item' := by
  cases t with
  | symbol s =>
    obtain ⟨rfl, -⟩ := pure_eq_ok_iff.1 read.ofToken
    obtain ⟨rfl, -⟩ := pure_eq_ok_iff.1 read'.ofToken
    exact .symbol s
  | word name =>
    obtain ⟨rfl, meant⟩ := Item.ofToken_word_eq_ok_iff.1 read.ofToken
    obtain ⟨rfl, meant'⟩ := Item.ofToken_word_eq_ok_iff.1 read'.ofToken
    rcases meant with ⟨v, found, rfl⟩ | ⟨-, f, builtin, rfl⟩
    · obtain ⟨has, found'⟩ := names.bound name v found
      rcases meant' with ⟨v', bound, rfl⟩ | ⟨free, -⟩
      · cases found'.symm.trans bound
        refine .value (alike_of_sense (read.larger.has has)
          (read'.larger.has (names.larger.has has)) rfl fun _ => ?_)
        rw [r.first.sense_start has, r.second.sense_start (names.larger.has has),
          names.larger.sense r.first.closed has]
      · cases found'.symm.trans free
    · rcases meant' with ⟨v', bound, rfl⟩ | ⟨-, f', builtin', rfl⟩
      · cases (names.builtin name v' bound).symm.trans builtin
      · cases builtin.symm.trans builtin'
        exact .function f
  | integer n =>
    obtain ⟨c, rfl, has, holds⟩ := read.literal.1 n rfl
    obtain ⟨c', rfl, has', holds'⟩ := read'.literal.1 n rfl
    exact .value (alike_of_meaning has has' fun _ => holds'.trans holds.symm)
  | double y =>
    obtain ⟨c, rfl, has, holds⟩ := read.literal.2 y rfl
    obtain ⟨c', rfl, has', holds'⟩ := read'.literal.2 y rfl
    exact .value (alike_of_meaning has has' fun _ => holds'.trans holds.symm)

/-- **Texts that correspond are read as like items.** -/
theorem likeItems (corresponds : w.Corresponds ts ts') (read : r.first.Reading scope ts d items d')
    (read' : r.second.Reading scope' ts' e items' e') : r.LikeItems ⟨d', e'⟩ items items' := by
  -- the name that is read is the variable that it is bound to
  have name_read : ∀ {name : String} {v : Variable} {item : Item} {e e' : Draft},
      scope'.find? name = some v → r.second.Reading scope' [.word name] e [item] e' →
      e = e' ∧ item = .value v := by
    intro name v item e e' found read
    obtain ⟨same, ⟨v', bound, rfl⟩ | ⟨free, -⟩⟩ := Item.ofToken_word_eq_ok_iff.1 read.ofToken
    · cases found.symm.trans bound
      exact ⟨same, rfl⟩
    · cases found.symm.trans free
  induction corresponds generalizing d e items items' with
  | nil =>
    obtain ⟨rfl, -⟩ := pure_eq_ok_iff.1 read.run
    obtain ⟨rfl, -⟩ := pure_eq_ok_iff.1 read'.run
    exact .nil
  | same t _ ih =>
    obtain ⟨item, d₁, more, one, others, rfl⟩ := read.cons
    obtain ⟨item', e₁, more', one', others', rfl⟩ := read'.cons
    exact .cons (lasting_likeItem (p := ⟨d₁, e₁⟩) ⟨others.grows, others'.grows⟩
      (likeItem names one one')) (ih others others')
  | @token t name _ _ stands _ ih =>
    obtain ⟨item, d₁, more, one, others, rfl⟩ := read.cons
    obtain ⟨item', e₁, more', one', others', rfl⟩ := read'.cons
    obtain ⟨v', found, has', denotes⟩ := names.token stands
    obtain ⟨rfl, rfl⟩ := name_read found one'
    obtain ⟨v, rfl, has, kind, means⟩ := denotes one
    have alike : r.Alike ⟨d₁, e⟩ v v' :=
      alike_of_sense has (one'.larger.has has') kind fun passes =>
        (means passes.first).trans (r.second.sense_start has').symm
    exact .cons (.value (lasting_alike ⟨others.grows, others'.grows⟩ alike)) (ih others others')
  | @group inside ts ts' name stands _ ih =>
    obtain ⟨first, d₁, more, one, others, rfl⟩ := read.append
    obtain ⟨first', e₁, more', one', others', rfl⟩ := read'.append
    obtain ⟨inner, within, rfl⟩ := one.parenthesize
    obtain ⟨inner', within', rfl⟩ := one'.parenthesize
    obtain ⟨item', _, _, name', nothing, rfl⟩ := within'.cons
    obtain ⟨rfl, rfl⟩ := pure_eq_ok_iff.1 nothing.run
    obtain ⟨v', found, has', yields⟩ := names.group stands
    obtain ⟨rfl, rfl⟩ := name_read found name'
    obtain ⟨plain, means⟩ := yields within
    refine .group plain (fun n f o f' later run => ?_) (ih others others')
    obtain ⟨resolves, v, rfl, has, kind, same⟩ := means (others.grows.trans later) run
    refine ⟨resolves, v, rfl, fun g further => ?_⟩
    exact alike_of_sense has
      (further.extends.has (others'.grows.extends.has (one'.larger.has has'))) kind fun passes =>
        (same passes.first).trans (r.second.sense_start has').symm

/-- **What has a value in the second statement stands for that value in the first one.** -/
theorem yields (corresponds : w.Corresponds ts ts') {m : Nat} {e₁ e₂ : Draft} {v' : Variable}
    (read' : r.second.Reading scope' ts' e items' e₁) (honest : r.second.Honest e₁)
    (run' : single (block m) items' e₁ = .ok (some v') e₂) (grows : e₂.Grows r.second.draft) :
    r.first.Yields scope ts (r.second.store.sense v') := by
  intro d items d' read
  have like := likeItems names corresponds read read'
  refine ⟨?_, fun n f o f' later run => ?_⟩
  · -- the items are one piece because the second ones are
    have plain := Item.plain_of_single run'
    refine ⟨fun empty => plain.nonempty ?_, (like.nesting_eq 0).symm.trans plain.balanced, ?_⟩
    · rw [← List.isEmpty_iff, like.isEmpty_eq, List.isEmpty_iff]
      exact empty
    · have pieces := like_splitTop .comma like 0
      rw [plain.whole] at pieces
      obtain ⟨piece, split⟩ := List.length_eq_one_iff.1 pieces.length_eq
      rw [split, eq_of_splitTop_singleton split]
  · have like' := lasting_likeItems (q := ⟨f, e₁⟩) (p := ⟨d', e₁⟩) ⟨later, .refl⟩ like
    obtain ⟨leads, related⟩ := @lockstep_single r ⟨f, e₁⟩ n m
      (fun like => lockstep_block n m like) _ _ (.items like') o (some v') ⟨f', e₂⟩ run run'
    obtain alike | _ := related
    rename_i v
    obtain ⟨has, kind, same⟩ := alike.sense
    exact ⟨leads.first, v, rfl, has, kind, fun passes =>
      same ⟨passes, grows, honest.of_resolves leads.second⟩⟩

/-- The same of a single token. -/
theorem denotes {t : Token} (plain : symbol? t = none) {m : Nat} {e₁ e₂ : Draft} {v' : Variable}
    (read' : r.second.Reading scope' [t] e items' e₁) (honest : r.second.Honest e₁)
    (run' : single (block m) items' e₁ = .ok (some v') e₂) (grows : e₂.Grows r.second.draft) :
    r.first.Denotes scope t (r.second.store.sense v') := by
  intro d item d' read
  obtain ⟨item', _, _, one', nothing, rfl⟩ := read'.cons
  obtain ⟨rfl, rfl⟩ := pure_eq_ok_iff.1 nothing.run
  have like := likeItem names read one'
  cases like with
  | symbol s => cases (Item.symbol_of_ofToken read.ofToken).trans plain
  | function f => exact absurd run' single_function_ne_ok
  | value alike =>
    obtain ⟨eq, rfl⟩ := single_value run'
    cases eq
    obtain ⟨has, kind, same⟩ := alike.sense
    exact ⟨_, rfl, has, kind, fun passes => same ⟨passes, grows, honest⟩⟩

end Comparison

end MatrixCalc
