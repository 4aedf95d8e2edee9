import MatrixCalc.Proofs.Lexing

/-!
# Texts of expressions

An expression is written with blanks anywhere between its symbols, names and numbers.  A minus sign
directly in front of a number, where no operand stands before, belongs to the number: `-2` is one
operand, `- 2` an operator and an operand.

* `Expression.Operand` : a name, or a number with or without a sign.
* `Expression.Writes` : the texts of pieces without signs.
* `Expression.Spells` : the texts of pieces, as they are read.
* `Expression.exists_spells` : **every text of a tree is one of a tree with signs**.
* `Expression.tokenize_of_spells` : **an assignment is read as its tokens, however it is laid
  out**.
-/

namespace MatrixCalc

namespace Expression

open Token

/-- A number as it is written without a sign, and its value. -/
structure Number where
  /-- What is written. -/
  numeral : Numeral
  /-- It is written as numerals are. -/
  wellFormed : numeral.WellFormed
  /-- The value, whole or not. -/
  value : Int64 ⊕ Float
  /-- The value is that of the numeral. -/
  token_eq : numeral.token = .ok (value.elim Token.integer Token.double)

/-- The value behind a sign, if there is one. -/
def Number.signed (x : Number) (sign : Bool) : Int64 ⊕ Float :=
  if sign then x.value.map (- ·) (- ·) else x.value

/-- What operators stand between. -/
inductive Operand where
  /-- A name. -/
  | word (name : String)
  /-- A number, with or without a minus sign directly in front of it. -/
  | number (sign : Bool) (x : Number)

/-- The token of an operand. -/
def Operand.token : Operand → Token
  | .word name => Token.word name
  | .number sign x => (x.signed sign).elim Token.integer Token.double

/-- An operand may stand behind what `before` says: a sign only where no operand stands before. -/
def Operand.Admitted (before : Preceding) : Operand → Prop
  | .number true _ => before = .operator
  | _ => True

theorem Operand.symbol?_token (a : Operand) : symbol? a.token = none := by
  cases a with
  | word => rfl
  | number sign x =>
    rw [token]
    cases x.signed sign <;> rfl

theorem Operand.preceding_token (a : Operand) : a.token.preceding = .operand := by
  cases a with
  | word => rfl
  | number sign x =>
    rw [token]
    cases x.signed sign <;> rfl

theorem Number.negated_token (x : Number) : (x.value.elim Token.integer Token.double).negated =
    (Operand.number true x).token := by
  rw [Operand.token, signed, if_pos rfl]
  cases x.value <;> rfl

/-- The text holds the pieces one after another, with blanks anywhere.  A word and a number end
where they are followed by something that does not go on with them, and a minus sign that is an
operator of its own does not stand directly in front of a number. -/
inductive Spells : List (Symbol ⊕ Operand) → List Char → Prop
  | nil : Spells [] []
  | blank {c : Char} {pieces : List (Symbol ⊕ Operand)} {cs : List Char}
      (blank : isBlank c = true) (rest : Spells pieces cs) : Spells pieces (c :: cs)
  | symbol {pieces : List (Symbol ⊕ Operand)} {cs : List Char} (s : Symbol)
      (apart : s = .neg → startsNumeral cs = false) (rest : Spells pieces cs) :
      Spells (.inl s :: pieces) (s.spelling.toList ++ cs)
  | word {pieces : List (Symbol ⊕ Operand)} {cs : List Char} {name : String}
      (word : isIdentifier name = true) (ends : endsWord cs = true) (rest : Spells pieces cs) :
      Spells (.inr (.word name) :: pieces) (name.toList ++ cs)
  | number {pieces : List (Symbol ⊕ Operand)} {cs : List Char} (x : Number)
      (ends : x.numeral.EndsAt cs) (rest : Spells pieces cs) :
      Spells (.inr (.number false x) :: pieces) (x.numeral.chars ++ cs)
  | signed {pieces : List (Symbol ⊕ Operand)} {cs : List Char} (x : Number)
      (ends : x.numeral.EndsAt cs) (rest : Spells pieces cs) :
      Spells (.inr (.number true x) :: pieces) ('-' :: (x.numeral.chars ++ cs))

/-- The text holds the pieces one after another, with blanks anywhere.  No number has a sign: a
minus sign is an operator wherever it stands. -/
inductive Writes : List (Symbol ⊕ Operand) → List Char → Prop
  | nil : Writes [] []
  | blank {c : Char} {pieces : List (Symbol ⊕ Operand)} {cs : List Char}
      (blank : isBlank c = true) (rest : Writes pieces cs) : Writes pieces (c :: cs)
  | symbol {pieces : List (Symbol ⊕ Operand)} {cs : List Char} (s : Symbol)
      (rest : Writes pieces cs) : Writes (.inl s :: pieces) (s.spelling.toList ++ cs)
  | word {pieces : List (Symbol ⊕ Operand)} {cs : List Char} {name : String}
      (word : isIdentifier name = true) (ends : endsWord cs = true) (rest : Writes pieces cs) :
      Writes (.inr (.word name) :: pieces) (name.toList ++ cs)
  | number {pieces : List (Symbol ⊕ Operand)} {cs : List Char} (x : Number)
      (ends : x.numeral.EndsAt cs) (rest : Writes pieces cs) :
      Writes (.inr (.number false x) :: pieces) (x.numeral.chars ++ cs)

/-- Some of the minus signs in front of numbers become part of them. -/
inductive Folds : List (Symbol ⊕ Operand) → List (Symbol ⊕ Operand) → Prop
  | nil : Folds [] []
  | keep {pieces pieces' : List (Symbol ⊕ Operand)} (p : Symbol ⊕ Operand)
      (rest : Folds pieces pieces') : Folds (p :: pieces) (p :: pieces')
  | sign {pieces pieces' : List (Symbol ⊕ Operand)} (x : Number) (rest : Folds pieces pieces') :
      Folds (.inl .neg :: .inr (.number false x) :: pieces) (.inr (.number true x) :: pieces')

/-- Every piece fits what stands directly in front of it, and the brackets are closed. -/
def Placed : Preceding → List Symbol → List (Symbol ⊕ Operand) → Prop
  | _, opened, [] => opened = []
  | before, opened, .inl s :: pieces => (Token.symbol s).Fits before ∧
    ∃ opened', openAfter opened (Token.symbol s) = some opened' ∧
      Placed (Token.symbol s).preceding opened' pieces
  | before, opened, .inr a :: pieces => a.Admitted before ∧ Placed .operand opened pieces

variable {before : Preceding} {opened : List Symbol}
  {pieces pieces' rest : List (Symbol ⊕ Operand)} {cs : List Char} {e : Expression Operand}
  {n depth : Nat} {signs : Bool}

/-! ### Signs of numbers -/

/-- In a text the minus signs directly in front of numbers become part of them.  For the induction
this is also said of the text with a minus sign in front. -/
theorem Writes.exists_spells (text : Writes pieces cs) :
    (∃ pieces', Folds pieces pieces' ∧ Spells pieces' cs) ∧ (startsNumeral cs = true →
      ∃ pieces', Folds (.inl .neg :: pieces) pieces' ∧ Spells pieces' ('-' :: cs)) := by
  induction text with
  | nil => exact ⟨⟨[], .nil, .nil⟩, fun number => by cases number⟩
  | @blank c _ cs blank _ ih =>
    obtain ⟨⟨pieces', folds, spells⟩, -⟩ := ih
    have none : startsNumeral (c :: cs) = false := startsNumeral_of_startsBlank blank
    refine ⟨⟨pieces', folds, .blank blank spells⟩, fun number => ?_⟩
    cases none.symm.trans number
  | @symbol _ cs s _ ih =>
    obtain ⟨⟨pieces', folds, spells⟩, signed⟩ := ih
    refine ⟨?_, fun number => by cases s <;> cases number⟩
    -- only a minus sign in front of a number is no operator
    by_cases apart : s = .neg → startsNumeral cs = false
    · exact ⟨_, .keep _ folds, .symbol s apart spells⟩
    · obtain ⟨rfl, number⟩ := Classical.not_imp.1 apart
      exact signed (Bool.of_not_eq_false number)
  | word word ends _ ih =>
    obtain ⟨⟨pieces', folds, spells⟩, -⟩ := ih
    refine ⟨⟨_, .keep _ folds, .word word ends spells⟩, fun number => ?_⟩
    cases (startsNumeral_word word _).symm.trans number
  | number x ends _ ih =>
    obtain ⟨⟨pieces', folds, spells⟩, -⟩ := ih
    exact ⟨⟨_, .keep _ folds, .number x ends spells⟩,
      fun _ => ⟨_, .sign x folds, .signed x ends spells⟩⟩

/-- The symbols and names are old, and so are the numbers up to their signs. -/
theorem Folds.mem (h : Folds pieces pieces') {p : Symbol ⊕ Operand} (mem : p ∈ pieces') :
    p ∈ pieces ∨ ∃ x, p = .inr (.number true x) := by
  induction h with
  | nil => cases mem
  | keep q _ ih =>
    rcases List.mem_cons.1 mem with rfl | mem
    · exact .inl List.mem_cons_self
    · exact (ih mem).imp_left (List.mem_cons_of_mem _)
  | sign x _ ih =>
    rcases List.mem_cons.1 mem with rfl | mem
    · exact .inr ⟨x, rfl⟩
    · exact (ih mem).imp_left fun old => List.mem_cons_of_mem _ (List.mem_cons_of_mem _ old)

/-- A sign is not divided from its number by cutting the pieces in front of a symbol. -/
theorem Folds.append_left {first : List (Symbol ⊕ Operand)} {s : Symbol}
    (h : Folds (first ++ .inl s :: rest) pieces') (other : s ≠ .neg) : ∃ first' rest',
      pieces' = first' ++ .inl s :: rest' ∧ Folds first first' ∧ Folds rest rest' := by
  generalize whole : first ++ .inl s :: rest = pieces at h
  induction h generalizing first with
  | nil => simp at whole
  | keep p behind ih =>
    cases first with
    | nil =>
      cases whole
      exact ⟨[], _, rfl, .nil, behind⟩
    | cons q first =>
      obtain ⟨rfl, more⟩ := List.cons.inj whole
      obtain ⟨first', rest', rfl, front, back⟩ := ih more
      exact ⟨_, rest', rfl, .keep _ front, back⟩
  | sign x behind ih =>
    rcases first with _ | ⟨q, _ | ⟨q', first⟩⟩
    · cases whole
      exact absurd rfl other
    · cases whole
    · cases whole
      obtain ⟨first', rest', rfl, front, back⟩ := ih rfl
      exact ⟨_, rest', rfl, .sign x front, back⟩

/-- What starts with an operand can start with another one, and stand where a sign may. -/
theorem Prints.replace_first {α : Type} {e : Expression α} {pieces rest : List (Symbol ⊕ α)}
    {a : α} (h : Prints n signs e pieces depth) (first : pieces = .inr a :: rest) (b : α)
    {n' : Nat} (larger : n ≤ n') (signs' : Bool) :
    ∃ e', Prints n' signs' e' (.inr b :: rest) depth := by
  induction h generalizing rest n' signs' with
  | leaf =>
    cases first
    exact ⟨_, .leaf b⟩
  | @transpose _ _ _ _ pieces room operand ih =>
    cases pieces with
    | nil => cases first
    | cons p pieces =>
      obtain ⟨rfl, rfl⟩ := List.cons.inj first
      obtain ⟨e', printed⟩ := ih rfl (le_refl 1) false
      exact ⟨_, .transpose (room.trans larger) printed⟩
  | sign | negate | bracket => cases first
  | @binary _ _ _ _ _ _ _ pieces _ room left right ihl _ =>
    cases pieces with
    | nil =>
      cases first
    | cons p pieces =>
      obtain ⟨rfl, rfl⟩ := List.cons.inj first
      obtain ⟨e', printed⟩ := ihl rfl (le_refl _) false
      exact ⟨_, .binary (room.trans larger) printed right⟩

/-- With signs at numbers a printed tree is a printed tree. -/
theorem Prints.fold (h : Prints n signs e pieces depth) (folds : Folds pieces pieces') :
    ∃ e', Prints n signs e' pieces' depth := by
  induction h generalizing pieces' with
  | leaf a =>
    cases folds with
    | keep _ nothing =>
      cases nothing
      exact ⟨_, .leaf a⟩
  | transpose room _ ih =>
    obtain ⟨front, _, rfl, operand, nothing⟩ := folds.append_left (by decide)
    cases nothing
    obtain ⟨e', printed⟩ := ih operand
    exact ⟨_, .transpose room printed⟩
  | sign _ ih =>
    cases folds with
    | keep _ operand =>
      obtain ⟨e', printed⟩ := ih operand
      exact ⟨_, .sign printed⟩
    | sign x rest =>
      obtain ⟨e', printed⟩ := ih (.keep _ rest)
      exact printed.replace_first rfl _ (le_refl _) true
  | negate room _ ih =>
    cases folds with
    | keep _ operand =>
      obtain ⟨e', printed⟩ := ih operand
      exact ⟨_, .negate room printed⟩
    | sign x rest =>
      obtain ⟨e', printed⟩ := ih (.keep _ rest)
      exact printed.replace_first rfl _ room false
  | @binary _ _ _ _ o _ _ _ _ room _ _ ihl ihr =>
    obtain ⟨front, back, rfl, left, right⟩ := folds.append_left (by cases o <;> decide)
    obtain ⟨l, printed⟩ := ihl left
    obtain ⟨r, printed'⟩ := ihr right
    exact ⟨_, .binary room printed printed'⟩
  | bracket _ ih =>
    cases folds with
    | keep _ opened =>
      obtain ⟨inside, _, rfl, operand, nothing⟩ := opened.append_left (by decide)
      cases nothing
      obtain ⟨e', printed⟩ := ih operand
      exact ⟨e', .bracket printed⟩

/-- **Every text of a tree is one of a tree with signs**: the minus signs that stand directly in
front of numbers become part of them. -/
theorem exists_spells {target : String}
    (text : Writes (.inr (.word target) :: .inl .assign :: pieces) cs)
    (h : Prints n signs e pieces depth) : ∃ pieces' e', Folds pieces pieces' ∧
      Spells (.inr (.word target) :: .inl .assign :: pieces') cs ∧
      Prints n signs e' pieces' depth := by
  obtain ⟨⟨_, folds, spells⟩, -⟩ := text.exists_spells
  cases folds with
  | keep _ folds =>
    cases folds with
    | keep _ folds =>
      obtain ⟨e', printed⟩ := h.fold folds
      exact ⟨_, e', folds, spells, printed⟩

/-! ### Reading -/

/-- A text is read as the tokens of its pieces. -/
theorem readFrom_of_spells (text : Spells pieces cs) (placed : Placed before opened pieces) :
    readFrom before opened cs = .ok (tokensBy Operand.token pieces) := by
  induction text generalizing before opened with
  | nil =>
    obtain rfl : opened = [] := placed
    rw [readFrom]
    rfl
  | blank blank _ ih =>
    rw [readFrom_blank blank]
    exact ih placed
  | symbol s apart _ ih =>
    obtain ⟨fits, opened', after, behind⟩ := placed
    obtain ⟨c, cs, split, solid, read⟩ := readAs_symbol fits after apart
    change readFrom _ _ ((Token.symbol s).spelling.toList ++ _) = _
    rw [split, readFrom_of_step solid read]
    exact congrArg _ (ih behind)
  | word word ends _ ih =>
    rw [readFrom_word word ends, ih placed.2]
    rfl
  | number x ends _ ih =>
    obtain ⟨c, cs, split, solid, read⟩ := step_numeral x.wellFormed ends x.token_eq
    change step before opened c cs = .ok ((Operand.number false x).token, _, opened) at read
    rw [split, readFrom_of_step solid read, Operand.preceding_token, ih placed.2]
    rfl
  | signed x ends _ ih =>
    obtain ⟨rfl, behind⟩ := placed
    have read := @step_negated _ _ _ opened x.wellFormed ends x.token_eq
    rw [readFrom_of_step (by decide) read, x.negated_token, Operand.preceding_token, ih behind]
    rfl

/-- A printed tree fits where an operand is expected. -/
theorem placed_prints (h : Prints n signs e pieces depth) (behind : Placed .operand opened rest) :
    Placed .operator opened (pieces ++ rest) := by
  induction h generalizing opened rest with
  | leaf a =>
    refine ⟨?_, behind⟩
    rcases a with name | ⟨_ | _, x⟩
    · trivial
    · trivial
    · rfl
  | transpose _ _ ih =>
    rw [List.append_assoc]
    exact ih ⟨rfl, opened, rfl, behind⟩
  | sign _ ih | negate _ _ ih => exact ⟨rfl, opened, rfl, ih behind⟩
  | @binary _ _ _ _ o _ _ pieces pieces' _ _ _ ihl ihr =>
    have joins : Placed .operand opened (.inl o.symbol :: (pieces' ++ rest)) := by
      cases o <;> exact ⟨by trivial, opened, rfl, ihr behind⟩
    rw [List.append_assoc]
    exact ihl joins
  | bracket _ ih =>
    rw [enclose, List.cons_append, List.cons_append, List.append_assoc]
    exact ⟨trivial, _, rfl, ih ⟨trivial, opened, rfl, behind⟩⟩

/-- **An assignment is read as its tokens**, however it is laid out. -/
theorem tokenize_of_spells {target : String} {source : String}
    (text : Spells (.inr (.word target) :: .inl .assign :: pieces) source.toList)
    (h : Prints n signs e pieces depth) : tokenize source =
      .ok (.word target :: .symbol .assign :: tokensBy Operand.token pieces) := by
  have right : Placed .operator [] (pieces ++ []) := placed_prints h rfl
  rw [List.append_nil] at right
  rw [tokenize, readFrom_of_spells text ⟨trivial, trivial, [], rfl, right⟩]
  rfl

end Expression

end MatrixCalc
