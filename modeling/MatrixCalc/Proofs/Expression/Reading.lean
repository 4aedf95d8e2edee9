import MatrixCalc.Proofs.Compilation
import MatrixCalc.Proofs.Expression.Groups

/-!
# Reading expressions

The text of a printed tree is read as its tokens, and with the names bound, the tokens are those of
the tree of variables.  No name in a printed tree stands directly in front of a bracket, so macros
leave it alone.

* `Expression.tokenize_assignment` : the tokens of an assignment of a tree.
* `Expression.prepare_tokens` : **the items of its right side**.
-/

namespace MatrixCalc

/-! ### Characters -/

theorem isDigit_of_isWordStart {c : Char} (h : isWordStart c = true) : c.isDigit = false := by
  rcases (Bool.or_eq_true _ _).mp h with letter | line
  · by_contra digit
    simp only [Char.isAlpha, Char.isUpper, Char.isLower, Char.isDigit, Bool.or_eq_true,
      Bool.and_eq_true, decide_eq_true_eq, Bool.not_eq_false, UInt32.le_iff_toNat_le, ge_iff_le]
      at letter digit
    simp at letter digit
    omega
  · rw [eq_of_beq line]
    decide

theorem isBlank_of_isWordStart {c : Char} (h : isWordStart c = true) : isBlank c = false := by
  rcases (Bool.or_eq_true _ _).mp h with letter | line
  · exact isBlank_eq_false_of_isAlphanum (by simp [Char.isAlphanum, letter])
  · rw [eq_of_beq line]
    decide

theorem isIdentifier_iff {name : String} : isIdentifier name = true ↔
    ∃ c cs, name.toList = c :: cs ∧ isWordStart c = true ∧ ∀ x ∈ cs, isWordPart x = true := by
  unfold isIdentifier
  cases name.toList <;> simp

/-- No word runs on into the text. -/
def endsWord : List Char → Bool
  | [] => true
  | c :: _ => !isWordPart c

namespace Token

variable {opened : List Symbol} {before : Preceding}

/-- One token more. -/
theorem readFrom_of_step {opened' : List Symbol} {c : Char} {cs rest : List Char} {t : Token}
    (solid : isBlank c = false) (h : step before opened c cs = .ok (t, rest, opened')) :
    readFrom before opened (c :: cs) = (readFrom t.preceding opened' rest).map (t :: ·) := by
  rw [readFrom, solid]
  simp only [Bool.false_eq_true, if_false]
  split
  · rename_i failed
    cases failed.symm.trans h
  · rename_i found
    cases found.symm.trans h
    rfl

/-- A word is read as far as it goes. -/
theorem exists_step_word {name : String} (h : isIdentifier name = true) {rest : List Char}
    (stops : endsWord rest = true) : ∃ c cs, name.toList ++ rest = c :: cs ∧ isBlank c = false ∧
      step before opened c cs = .ok (word name, rest, opened) := by
  obtain ⟨c, cs, split, start, part⟩ := isIdentifier_iff.1 h
  have taken : (cs ++ rest).takeWhile isWordPart = cs := by
    rw [List.takeWhile_append_of_pos part]
    cases rest with
    | nil => simp
    | cons x rest => simp [endsWord] at stops; simp [stops]
  have dropped : (cs ++ rest).dropWhile isWordPart = rest := by
    rw [List.dropWhile_append_of_pos part]
    cases rest with
    | nil => rfl
    | cons x rest => simp [endsWord] at stops; simp [stops]
  have name_eq : String.ofList (c :: cs) = name := by
    rw [← split, String.ofList_toList]
  have read : step before opened c (cs ++ rest) = .ok (word name, rest, opened) := by
    have other : ∀ x : Char, isWordStart x = false → c ≠ x := by
      rintro x no rfl
      rw [start] at no
      cases no
    unfold step
    rw [if_neg (other '-' (by decide)), if_neg (other '.' (by decide)),
      if_neg (other '\x27' (by decide)), if_neg (other '(' (by decide)),
      if_neg (other '[' (by decide)), if_neg (other ')' (by decide)),
      if_neg (other ']' (by decide)), isDigit_of_isWordStart start, if_neg Bool.false_ne_true,
      if_pos start, taken, dropped, name_eq]
  exact ⟨c, cs ++ rest, by rw [split, List.cons_append], isBlank_of_isWordStart start, read⟩

theorem readFrom_word {name : String} (h : isIdentifier name = true) {rest : List Char}
    (stops : endsWord rest = true) : readFrom before opened (name.toList ++ rest) =
      (readFrom .operand opened rest).map (word name :: ·) := by
  obtain ⟨c, cs, text, solid, read⟩ := exists_step_word h stops
  rw [text]
  exact readFrom_of_step solid read

theorem readFrom_symbol {s : Symbol} {c : Char} {cs rest : List Char} {opened' : List Symbol}
    (solid : isBlank c = false) (h : step before opened c cs = .ok (symbol s, rest, opened'))
    {after : Preceding} (role : (symbol s).preceding = after) :
    readFrom before opened (c :: cs) = (readFrom after opened' rest).map (symbol s :: ·) := by
  rw [← role]
  exact readFrom_of_step solid h

theorem readFrom_binary (o : BinaryOperator) (rest : List Char) :
    readFrom .operand opened (o.symbol.spelling.toList ++ rest) =
      (readFrom .operator opened rest).map (symbol o.symbol :: ·) := by
  cases o <;> exact readFrom_symbol (by decide) rfl rfl

/-- A minus sign in front of something that is no number. -/
theorem readFrom_neg {rest : List Char} (h : startsNumeral rest = false) :
    readFrom .operator opened ('-' :: rest) =
      (readFrom .operator opened rest).map (symbol .neg :: ·) := by
  have read : step .operator opened '-' rest = .ok (symbol .neg, rest, opened) := by
    cases rest with
    | nil => rfl
    | cons c rest =>
      simp only [step, if_true, readMinus, h, Bool.false_eq_true, if_false]
      rfl
  exact readFrom_symbol (by decide) read rfl

theorem readFrom_transpose (rest : List Char) : readFrom .operand opened ('\x27' :: rest) =
    (readFrom .operand opened rest).map (symbol .transpose :: ·) :=
  readFrom_symbol (by decide) rfl rfl

theorem readFrom_opening (rest : List Char) : readFrom before opened ('(' :: rest) =
    (readFrom .operator (.parenLeft :: opened) rest).map (symbol .parenLeft :: ·) :=
  readFrom_symbol (by decide) rfl rfl

theorem readFrom_closing (rest : List Char) :
    readFrom before (.parenLeft :: opened) (')' :: rest) =
      (readFrom .operand opened rest).map (symbol .parenRight :: ·) :=
  readFrom_symbol (by decide) rfl rfl

end Token

/-! ### Texts -/

namespace Expression

open Token

variable {e : Expression String} {n depth : Nat} {signs : Bool}
  {pieces : List (Symbol ⊕ String)} {opened : List Symbol}

/-- The tokens of a printed tree, given those of its leaves. -/
def tokensBy {α : Type} (f : α → Token) (pieces : List (Symbol ⊕ α)) : List Token :=
  pieces.map (Sum.elim Token.symbol f)

/-- The characters of a printed tree. -/
def charsOf (pieces : List (Symbol ⊕ String)) : List Char :=
  (pieces.map (Sum.elim Symbol.spelling id)).flatMap String.toList

theorem charsOf_append (pieces pieces' : List (Symbol ⊕ String)) :
    charsOf (pieces ++ pieces') = charsOf pieces ++ charsOf pieces' := by
  simp [charsOf]

theorem tokensBy_append {α : Type} (f : α → Token) (pieces pieces' : List (Symbol ⊕ α)) :
    tokensBy f (pieces ++ pieces') = tokensBy f pieces ++ tokensBy f pieces' := List.map_append

/-- A word is no number. -/
theorem startsNumeral_word {name : String} (word : isIdentifier name = true) (rest : List Char) :
    startsNumeral (name.toList ++ rest) = false := by
  obtain ⟨c, cs, split, start, -⟩ := isIdentifier_iff.1 word
  rw [split, List.cons_append]
  unfold startsNumeral
  split
  · rename_i point
    rw [(List.cons.inj point).1] at start
    cases start
  · rename_i first
    rw [← (List.cons.inj first).1]
    exact isDigit_of_isWordStart start
  · rfl

/-- What a printed tree starts with is no number. -/
theorem startsNumeral_charsOf (h : Prints n signs e pieces depth)
    (words : ∀ name ∈ e.leaves, isIdentifier name = true) (rest : List Char) :
    startsNumeral (charsOf pieces ++ rest) = false := by
  induction h generalizing rest with
  | leaf name =>
    have chars : charsOf [.inr name] = name.toList := by simp [charsOf]
    rw [chars]
    exact startsNumeral_word (words name (by simp [leaves])) rest
  | transpose _ _ ih =>
    rw [charsOf_append, List.append_assoc]
    exact ih words _
  | sign _ ih | negate _ _ ih => rfl
  | binary _ _ _ ihl _ =>
    rw [charsOf_append, List.append_assoc]
    exact ihl (fun name mem => words name (List.mem_append_left _ mem)) _
  | bracket _ _ => rfl

theorem map_append {α : Type} (x : Except Malformed (List α)) (first second : List α) :
    (x.map (second ++ ·)).map (first ++ ·) = x.map (first ++ second ++ ·) := by
  cases x <;> simp [Except.map]

/-- The printed tree is read as its tokens, and an operand ends there. -/
theorem readFrom_charsOf (h : Prints n signs e pieces depth)
    (words : ∀ name ∈ e.leaves, isIdentifier name = true) {rest : List Char}
    (stops : endsWord rest = true) : readFrom .operator opened (charsOf pieces ++ rest) =
      (readFrom .operand opened rest).map (tokensBy Token.word pieces ++ ·) := by
  -- what follows an operand must not continue a word: an operator, a bracket or the given rest
  induction h generalizing opened rest with
  | leaf name =>
    have chars : charsOf [.inr name] = name.toList := by simp [charsOf]
    rw [chars]
    exact readFrom_word (words name (by simp [leaves])) stops
  | transpose _ _ ih =>
    rw [charsOf_append, List.append_assoc, ih words rfl]
    refine (congrArg _ (readFrom_transpose rest)).trans ((map_append _ _ [_]).trans ?_)
    rw [tokensBy_append]
    rfl
  | sign operand ih | negate _ operand ih =>
    refine (readFrom_neg (startsNumeral_charsOf operand words rest)).trans ?_
    exact (congrArg _ (ih words stops)).trans (map_append _ [_] _)
  | @binary _ _ _ _ o _ _ pieces pieces' _ _ _ ihl ihr =>
    have left := fun name mem => words name (List.mem_append_left _ mem)
    have right := fun name mem => words name (List.mem_append_right _ mem)
    have chars : charsOf (pieces ++ .inl o.symbol :: pieces') ++ rest =
        charsOf pieces ++ (o.symbol.spelling.toList ++ (charsOf pieces' ++ rest)) := by
      simp [charsOf]
    have ends : endsWord (o.symbol.spelling.toList ++ (charsOf pieces' ++ rest)) = true := by
      cases o <;> rfl
    rw [chars, ihl left ends, readFrom_binary, ihr right stops]
    refine (congrArg _ (map_append _ [_] _)).trans ((map_append _ _ _).trans ?_)
    rw [tokensBy_append]
    rfl
  | @bracket _ _ _ _ pieces _ ih =>
    -- inside, one more bracket is open
    have chars : charsOf (enclose pieces) ++ rest = '(' :: (charsOf pieces ++ ')' :: rest) := by
      have opening : Symbol.parenLeft.spelling.toList = ['('] := rfl
      have closing : Symbol.parenRight.spelling.toList = [')'] := rfl
      simp [enclose, charsOf, opening, closing]
    rw [chars, readFrom_opening, ih words rfl, readFrom_closing]
    refine (congrArg _ (map_append _ _ [_])).trans ((map_append _ [_] _).trans ?_)
    rw [enclose, tokensBy_append]
    rfl

theorem readFrom_blank {before : Preceding} {c : Char} (h : isBlank c = true) (rest : List Char) :
    readFrom before opened (c :: rest) = readFrom before opened rest := by
  rw [readFrom, if_pos h]

/-- **The tokens of an assignment of a tree.** -/
theorem tokenize_assignment {target : String} (named : isIdentifier target = true)
    (words : ∀ name ∈ e.leaves, isIdentifier name = true) :
    Token.tokenize (target ++ " = " ++ e.text) =
      .ok (.word target :: .symbol .assign :: e.tokens) := by
  have chars : (target ++ " = " ++ e.text).toList =
      target.toList ++ ' ' :: '=' :: ' ' :: (charsOf (e.write 6 false) ++ []) := by
    have middle : (" = " : String).toList = [' ', '=', ' '] := rfl
    simp [text, charsOf, String.toList_join, middle]
  have right : readFrom .operator [] (charsOf (e.write 6 false) ++ []) =
      (readFrom .operand [] []).map (tokensBy Token.word (e.write 6 false) ++ ·) :=
    readFrom_charsOf (prints_write 6 false e) words rfl
  have sign : ∀ rest, readFrom .operand [] ('=' :: rest) =
      (readFrom .operator [] rest).map (symbol .assign :: ·) := fun _ =>
    readFrom_symbol (by decide) rfl rfl
  have last : readFrom .operand [] [] = .ok [] := by rw [readFrom]
  rw [Token.tokenize, chars, readFrom_word named rfl, readFrom_blank rfl, sign, readFrom_blank rfl,
    right, last]
  simp only [Except.map, List.append_nil]
  rfl

/-! ### Tokens of a printed tree -/

section

variable {α : Type} {f : α → Token} {e : Expression α} {pieces : List (Symbol ⊕ α)}

theorem tokensBy_ne_nil (f : α → Token) (h : Prints n signs e pieces depth) :
    tokensBy f pieces ≠ [] := by
  induction h with
  | binary | transpose | leaf | sign | negate | bracket => simp [tokensBy, enclose]

theorem assign_not_mem (h : Prints n signs e pieces depth) : .inl .assign ∉ pieces := by
  induction h with
  | leaf => simp
  | transpose _ _ ih | sign _ ih | negate _ _ ih => simpa using ih
  | @binary _ _ _ _ o _ _ _ _ _ _ _ ihl ihr =>
    have other : Symbol.assign ≠ o.symbol := by cases o <;> decide
    simp [other, ihl, ihr]
  | bracket _ ih => simpa [enclose] using ih

/-- The assignment of a printed tree is cut at its `=`. -/
theorem splitAssignment_tokensBy (plain : ∀ a, symbol? (f a) = none)
    (h : Prints n signs e pieces depth) (target : String) :
    Statement.splitAssignment (.word target :: .symbol .assign :: tokensBy f pieces) =
      .ok ([.word target], tokensBy f pieces) := by
  have none : (tokensBy f pieces).countP (isSymbol .assign) = 0 := by
    refine List.countP_eq_zero.2 fun t mem sign => ?_
    obtain ⟨piece, inside, rfl⟩ := List.mem_map.1 mem
    rcases piece with s | a
    · obtain rfl : s = .assign := Option.some.inj (eq_of_beq sign)
      exact assign_not_mem h inside
    · cases (plain a).symm.trans (eq_of_beq sign)
  have one : (Token.word target :: .symbol .assign :: tokensBy f pieces).countP
      (isSymbol .assign) = 1 := by
    rw [List.countP_cons, List.countP_cons, none]
    rfl
  unfold Statement.splitAssignment
  rw [one]
  rfl

/-! ### Macros -/

/-- The list does not start with an opening bracket. -/
def closes : List Token → Bool
  | .symbol .parenLeft :: _ => false
  | _ => true

/-- No word stands directly in front of an opening bracket. -/
def callless : List Token → Bool
  | [] => true
  | .word _ :: rest => closes rest && callless rest
  | _ :: rest => callless rest

/-- Macros leave a list without calls alone. -/
theorem replaceCalls_of_callless {table : Bindings Macro}
    {inner : List Token → Logged (List Token)} {tokens : List Token} (h : callless tokens = true) :
    Macro.replaceCalls table inner tokens = pure tokens := by
  fun_induction Macro.replaceCalls table inner tokens with
  | case1 => rfl
  | case2 | case3 | case4 => simp [callless, closes] at h
  | case5 t tokens other ih =>
    have rest : callless tokens = true := by
      cases t with
      | word name =>
        simp only [callless, Bool.and_eq_true] at h
        exact h.2
      | symbol | integer | double => exact h
    rw [ih rest, pure_bind]

theorem callless_tokensBy (plain : ∀ a, symbol? (f a) = none) (h : Prints n signs e pieces depth)
    {rest : List Token} (stops : closes rest = true) :
    callless (tokensBy f pieces ++ rest) = callless rest := by
  induction h generalizing rest with
  | leaf a =>
    have one : tokensBy f [.inr a] ++ rest = f a :: rest := rfl
    rw [one]
    have noSymbol := plain a
    cases token : f a with
    | word => rw [callless, stops, Bool.true_and]
    | symbol =>
      rw [token] at noSymbol
      cases noSymbol
    | integer | double => rfl
  | transpose _ _ ih =>
    rw [tokensBy_append, List.append_assoc]
    exact ih rfl
  | sign _ ih | negate _ _ ih => exact ih stops
  | @binary _ _ _ _ o _ _ _ _ _ _ _ ihl ihr =>
    rw [tokensBy_append, List.append_assoc, ihl (by cases o <;> rfl)]
    exact ihr stops
  | bracket _ ih =>
    rw [enclose, tokensBy_append, List.append_assoc]
    exact ih rfl

theorem expand_tokensBy (plain : ∀ a, symbol? (f a) = none) (macros : Bindings Macro)
    (h : Prints n signs e pieces depth) :
    Macro.expand macros (tokensBy f pieces) = pure (tokensBy f pieces) := by
  have free : callless (tokensBy f pieces ++ []) = callless [] := callless_tokensBy plain h rfl
  rw [List.append_nil] at free
  unfold Macro.expand
  split
  · rfl
  · exact replaceCalls_of_callless free

end

/-! ### Items -/

variable {scope : Bindings Variable} {macros : Bindings Macro} {v : String → Variable}

theorem Prints.map {α β : Type} (f : α → β) {e : Expression α} {pieces : List (Symbol ⊕ α)}
    (h : Prints n signs e pieces depth) :
    Prints n signs (e.map f) (pieces.map (Sum.map id f)) depth := by
  induction h with
  | leaf a => exact .leaf (f a)
  | transpose room _ ih =>
    rw [List.map_append]
    exact .transpose room ih
  | sign _ ih => exact .sign ih
  | negate room _ ih => exact .negate room ih
  | binary room _ _ ihl ihr =>
    rw [List.map_append]
    exact .binary room ihl ihr
  | bracket _ ih =>
    rw [enclose, List.map_append]
    exact .bracket ih

theorem mem_leaves_of_prints {α : Type} {e : Expression α} {pieces : List (Symbol ⊕ α)}
    (h : Prints n signs e pieces depth) {a : α} (mem : .inr a ∈ pieces) : a ∈ e.leaves := by
  induction h with
  | leaf b => simpa [leaves] using mem
  | transpose _ _ ih | sign _ ih | negate _ _ ih => exact ih (by simpa using mem)
  | binary _ _ _ ihl ihr =>
    rw [leaves, List.mem_append]
    rcases List.mem_append.1 mem with mem | mem
    · exact .inl (ihl mem)
    · exact .inr (ihr (by simpa using mem))
  | bracket _ ih => exact ih (by simpa [enclose] using mem)

/-- The items of words that are bound. -/
theorem ofTokens_tokensOf {d : Draft}
    (bound : ∀ name, .inr name ∈ pieces → scope.find? name = some (v name)) :
    Item.ofTokens scope (tokensBy Token.word pieces) d =
      .ok (itemsOf (pieces.map (Sum.map id v))) d := by
  induction pieces with
  | nil => rfl
  | cons piece pieces ih =>
    have rest := ih fun name mem => bound name (List.mem_cons_of_mem _ mem)
    have first : Item.ofToken scope (Sum.elim Token.symbol Token.word piece) d =
        .ok (Sum.elim Item.symbol Item.value (Sum.map id v piece)) d := by
      rcases piece with s | name
      · rfl
      · exact Item.ofToken_word_eq_ok_iff.2 ⟨rfl, .inl ⟨v name, bound name (by simp), rfl⟩⟩
    change (Item.ofToken scope (Sum.elim Token.symbol Token.word piece) >>= fun item =>
      Item.ofTokens scope (tokensBy Token.word pieces) >>= fun items => pure (item :: items)) d = _
    rw [bind_eq, first]
    dsimp only
    rw [bind_eq, rest]
    rfl

/-- Preparing the tokens of a printed tree is looking them up. -/
theorem prepare_tokensBy {α : Type} {f : α → Token} {e : Expression α}
    {pieces : List (Symbol ⊕ α)} (plain : ∀ a, symbol? (f a) = none)
    (h : Prints n signs e pieces depth) (d : Draft) :
    Statement.prepare scope macros (tokensBy f pieces) d =
      Item.ofTokens scope (tokensBy f pieces) d := by
  rw [Statement.prepare, bind_eq, Build.ofLogged, expand_tokensBy plain macros h]
  rfl

/-- **The items of a printed tree**, when its names are bound. -/
theorem prepare_tokensOf {d : Draft} (h : Prints n signs e pieces depth)
    (bound : ∀ name ∈ e.leaves, scope.find? name = some (v name)) :
    Statement.prepare scope macros (tokensBy Token.word pieces) d =
      .ok (itemsOf (pieces.map (Sum.map id v))) d :=
  (prepare_tokensBy (fun _ => rfl) h d).trans
    (ofTokens_tokensOf fun name mem => bound name (mem_leaves_of_prints h mem))

end Expression

end MatrixCalc
