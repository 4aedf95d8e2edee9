import MatrixCalc.Proofs.Brackets.Shapes
import MatrixCalc.Proofs.Expression.Numerals
import MatrixCalc.Proofs.Reachable

/-!
# The token lists of texts

Which lists of tokens are read from some text, and that reading undoes writing.  Doubles stay out of
the way: their spelling is a matter of number formats.

* `Token.Legible` : brackets are nested by shape, a minus sign and a quote stand where the text in
  front of them allows it, words are identifiers, and integers are not too small.
* `Token.Written` : a text holds the spellings of a list of tokens, with blanks in between.
* `Token.tokenize_written` : **a list of tokens is read from some text iff it is legible, and then
  it is read from every text that it is written in.**
-/

namespace MatrixCalc

namespace Token

/-- The token as it stands in a text. -/
def spelling : Token → String
  | symbol s => s.spelling
  | word name => name
  | integer value => toString value.toInt
  | double value => Layout.plain.write value

def isDouble : Token → Bool
  | double _ => true
  | _ => false

/-- The token may stand behind what `before` says.  A minus sign that joins operands and a quote
stand directly behind an operand; one that changes a sign, be it part of a number or not, never
does. -/
def Fits (before : Preceding) : Token → Prop
  | symbol .minus | symbol .transpose => before = .operand
  | symbol .neg => before = .operator
  | integer value => value.toInt < 0 → before = .operator
  | _ => True

/-- Every token of the list fits what stands directly in front of it. -/
def Placed : Preceding → List Token → Prop
  | _, [] => True
  | before, t :: ts => t.Fits before ∧ Placed t.preceding ts

/-- Words are identifiers.  The least integer cannot be written, as its magnitude is no integer. -/
def Spelled : Token → Prop
  | word name => isIdentifier name = true
  | integer value => -(2 ^ 63 - 1) ≤ value.toInt
  | _ => True

/-- A list of tokens that a text can hold. -/
structure Legible (tokens : List Token) : Prop where
  /-- The brackets are properly nested and matched by shape. -/
  nested : Nested tokens
  /-- Every token fits what stands in front of it, and an operator is expected at the start. -/
  placed : Placed .operator tokens
  /-- Every token has a spelling. -/
  spelled : ∀ t ∈ tokens, t.Spelled

/-- The text is empty or starts with a blank. -/
def startsBlank : List Char → Bool
  | [] => true
  | c :: _ => isBlank c

/-- The text holds the spellings of the tokens one after another, with blanks between them and
possibly around them. -/
inductive Written : List Token → List Char → Prop
  | nil : Written [] []
  | blank {c : Char} {ts : List Token} {cs : List Char} (blank : isBlank c = true)
      (rest : Written ts cs) : Written ts (c :: cs)
  | token {ts : List Token} {cs : List Char} (t : Token) (apart : startsBlank cs = true)
      (rest : Written ts cs) : Written (t :: ts) (t.spelling.toList ++ cs)

variable {before : Preceding} {opened opened' : List Symbol} {c first : Char}
  {cs rest digits : List Char} {t : Token} {ts : List Token}

/-! ### What is read is legible -/

theorem toInt_neg_ofNat {n : Nat} (small : n < 2 ^ 63) :
    (-Int64.ofNat n).toInt = -(n : Int) := by
  rw [Int64.toInt_neg, Int64.toInt_ofNat_of_lt small]
  exact Int.bmod_eq_of_le (by omega) (by omega)

/-- A numeral is a double or an integer that is not negative. -/
theorem eq_of_read (h : Numeral.read first cs = .ok (t, rest)) :
    (∃ x, t = double x) ∨ ∃ n < 2 ^ 63, t = integer (Int64.ofNat n) := by
  simp only [Numeral.read, except_bind_eq_ok_iff, except_pure_eq_ok_iff] at h
  obtain ⟨_, -, ⟨n, _⟩, -, -, -, found, token, eq⟩ := h
  cases eq
  unfold Numeral.token at token
  split at token
  · dsimp only at token
    split at token <;> cases token
    rename_i small
    exact .inr ⟨_, small, rfl⟩
  · cases token
    exact .inl ⟨_, rfl⟩

/-- What is known of a token that has been read: the brackets it leaves open, what stands before
it, and its spelling. -/
def Fine (before : Preceding) (opened : List Symbol) (t : Token) (opened' : List Symbol) : Prop :=
  openAfter opened t = some opened' ∧ t.Fits before ∧ t.Spelled

theorem fine_of_read (h : Numeral.read first cs = .ok (t, rest)) : Fine before opened t opened := by
  obtain ⟨x, rfl⟩ | ⟨n, small, rfl⟩ := eq_of_read h
  · exact ⟨rfl, trivial, trivial⟩
  · have value := Int64.toInt_ofNat_of_lt small
    refine ⟨rfl, fun negative => ?_, ?_⟩
    · omega
    · change -(2 ^ 63 - 1) ≤ (Int64.ofNat n).toInt
      omega

theorem fine_of_readPoint (h : readPoint cs = .ok (t, rest)) : Fine before opened t opened := by
  unfold readPoint at h
  split at h
  case h_4 =>
    split at h
    · exact fine_of_read h
    · cases h
  all_goals cases h
  all_goals exact ⟨rfl, trivial, trivial⟩

theorem fine_of_readMinus (h : readMinus before cs = .ok (t, rest)) :
    Fine before opened t opened := by
  unfold readMinus at h
  split at h
  · cases h
    exact ⟨rfl, rfl, trivial⟩
  · split at h
    · obtain ⟨⟨t', _⟩, read, eq⟩ := map_eq_ok_iff.1 h
      cases eq
      obtain ⟨x, rfl⟩ | ⟨n, small, rfl⟩ := eq_of_read read
      · exact ⟨rfl, trivial, trivial⟩
      · have value := toInt_neg_ofNat small
        refine ⟨rfl, fun _ => rfl, ?_⟩
        change -(2 ^ 63 - 1) ≤ (-Int64.ofNat n).toInt
        omega
    · cases h
      exact ⟨rfl, rfl, trivial⟩
  · cases h
    exact ⟨rfl, rfl, trivial⟩

/-- A closing bracket that is accepted closes the innermost bracket. -/
theorem opened_of_close {s : Symbol} (h : close s opened = .ok opened') :
    opened = s.opener :: opened' := by
  unfold close at h
  split at h
  · cases h
  · split at h
    · rename_i same
      cases h
      rw [same]
    · cases h

theorem fine_of_simpleSymbol {s : Symbol} (h : simpleSymbol? c = some s) :
    Fine before opened (symbol s) opened := by
  unfold simpleSymbol? at h
  split at h <;> cases h <;> exact ⟨rfl, trivial, trivial⟩

/-- **Every token that is read is fine.** -/
theorem fine_of_step (h : step before opened c cs = .ok (t, rest, opened')) :
    Fine before opened t opened' := by
  have named : ∀ {name}, t = word name → isIdentifier name = true := by
    rintro name rfl
    exact isIdentifier_of_step h
  unfold step at h
  split at h
  · obtain ⟨⟨_, _⟩, read, eq⟩ := map_eq_ok_iff.1 h
    cases eq
    exact fine_of_readMinus read
  split at h
  · obtain ⟨⟨_, _⟩, read, eq⟩ := map_eq_ok_iff.1 h
    cases eq
    exact fine_of_readPoint read
  -- a quote, and the four brackets
  split at h
  · split at h
    · rename_i behind
      cases h
      exact ⟨rfl, behind, trivial⟩
    · cases h
  split at h
  · cases h
    exact ⟨rfl, trivial, trivial⟩
  split at h
  · cases h
    exact ⟨rfl, trivial, trivial⟩
  split at h
  · obtain ⟨_, closed, eq⟩ := map_eq_ok_iff.1 h
    cases eq
    exact ⟨(openAfter_of_closing rfl rfl).2 (opened_of_close closed), trivial, trivial⟩
  split at h
  · obtain ⟨_, closed, eq⟩ := map_eq_ok_iff.1 h
    cases eq
    exact ⟨(openAfter_of_closing rfl rfl).2 (opened_of_close closed), trivial, trivial⟩
  split at h
  · obtain ⟨⟨_, _⟩, read, eq⟩ := map_eq_ok_iff.1 h
    cases eq
    exact fine_of_read read
  split at h
  · cases h
    exact ⟨rfl, trivial, named rfl⟩
  · split at h
    · rename_i simple
      cases h
      exact fine_of_simpleSymbol simple
    · cases h

/-- What has been read closes the brackets that were open, and every token is in its place. -/
theorem of_readFrom (h : readFrom before opened cs = .ok ts) :
    openBehind opened ts = some [] ∧ Placed before ts ∧ ∀ t ∈ ts, t.Spelled := by
  fun_induction readFrom before opened cs generalizing ts with
  | case1 =>
    cases h
    exact ⟨rfl, trivial, List.forall_mem_nil _⟩
  | case2 | case4 => cases h
  | case3 _ _ _ _ _ ih => exact ih h
  | case5 _ _ _ _ _ _ _ _ used ih =>
    obtain ⟨more, read, rfl⟩ := map_eq_ok_iff.1 h
    obtain ⟨after, fits, spelled⟩ := fine_of_step used
    obtain ⟨behind, placed, others⟩ := ih read
    refine ⟨?_, ⟨fits, placed⟩, ?_⟩
    · rw [openBehind_cons, after]
      exact behind
    · rintro u mem
      rcases List.mem_cons.1 mem with rfl | mem
      · exact spelled
      · exact others u mem

/-- **The tokens of a text are legible.** -/
theorem legible_of_tokenize {text : String} (h : tokenize text = .ok ts) : Legible ts := by
  unfold tokenize at h
  split at h
  · rename_i read
    cases h
    obtain ⟨closed, placed, spelled⟩ := of_readFrom read
    exact ⟨nested_of_openBehind closed, placed, spelled⟩
  · cases h

/-! ### Numbers in a text -/

theorem startsBlank_cons (h : startsBlank (c :: cs) = true) :
    isWordPart c = false ∧ c.isDigit = false ∧ c ≠ '.' := by
  have blank : isBlank c = true := h
  have other : ∀ x : Char, isBlank x = false → c ≠ x := by
    rintro x no rfl
    rw [blank] at no
    cases no
  have plain : c.isAlphanum = false := by
    by_contra letter
    rw [isBlank_eq_false_of_isAlphanum (by simpa using letter)] at blank
    cases blank
  refine ⟨?_, ?_, other '.' (by decide)⟩
  · simp [isWordPart, plain, other '_' (by decide)]
  · exact (Bool.or_eq_false_iff.1 plain).2

theorem read_of_digits (start : first.isDigit = true) (all : ∀ d ∈ digits, d.isDigit = true)
    (small : natural (first :: digits) < 2 ^ 63) (apart : startsBlank rest = true) :
    Numeral.read first (digits ++ rest) =
      .ok (integer (Int64.ofNat (natural (first :: digits))), rest) := by
  let n : Numeral := ⟨first :: digits, none, none⟩
  have wellFormed : n.WellFormed :=
    ⟨List.forall_mem_cons.2 ⟨start, all⟩, by simp [n], by simp [n], by simp [n]⟩
  have ends : n.EndsAt rest := by
    cases rest with
    | nil => trivial
    | cons c rest =>
      obtain ⟨noPart, -, noPoint⟩ := startsBlank_cons apart
      exact ⟨noPart, fun point => absurd point noPoint, by simp [n]⟩
  have token : n.token = .ok (integer (Int64.ofNat (natural (first :: digits)))) := by
    simp only [n, Numeral.token, Option.isNone_none, Bool.and_self, if_true]
    exact if_pos small
  obtain ⟨c, cs, split, -, read⟩ := n.read_text wellFormed ends token
  obtain ⟨rfl, rfl⟩ : first = c ∧ digits = cs := by
    simpa [n, Numeral.chars, Numeral.fractionChars, Numeral.exponentChars] using split
  exact read

/-- The digits of a number, of which there is at least one. -/
theorem exists_digits (n : Nat) : ∃ first digits, (toString n).toList = first :: digits ∧
    first.isDigit = true ∧ (∀ d ∈ digits, d.isDigit = true) ∧ natural (first :: digits) = n := by
  have all : ∀ d ∈ Nat.toDigits 10 n, d.isDigit = true := fun d mem =>
    Nat.isDigit_of_mem_toDigits (by decide) (by decide) mem
  have value : natural (Nat.toDigits 10 n) = n := Nat.ofDigitChars_toDigits (by decide) (by decide)
  obtain ⟨first, digits, split⟩ :=
    List.exists_cons_of_ne_nil (Nat.toDigits_ne_nil (b := 10) (n := n))
  rw [split] at all value
  exact ⟨first, digits, Nat.toList_repr.trans split, all _ (by simp),
    fun d mem => all d (by simp [mem]), value⟩

/-! ### What is legible is read -/

/-- A token is read from its spelling. -/
def ReadAs (before : Preceding) (opened : List Symbol) (t : Token) (opened' : List Symbol)
    (rest : List Char) : Prop :=
  ∃ c cs, t.spelling.toList ++ rest = c :: cs ∧ isBlank c = false ∧
    step before opened c cs = .ok (t, rest, opened')

theorem startsNumeral_of_startsBlank (h : startsBlank rest = true) :
    startsNumeral rest = false := by
  cases rest with
  | nil => rfl
  | cons c rest =>
    obtain ⟨-, noDigit, noPoint⟩ := startsBlank_cons h
    unfold startsNumeral
    split
    · rename_i eq
      exact absurd (List.cons.inj eq).1 noPoint
    · rename_i eq
      rw [← (List.cons.inj eq).1, noDigit]
    · rfl

/-- A negative integer is its magnitude behind a minus sign, which must not be read as an
operator. -/
theorem readAs_integer {value : Int64} (fits : (integer value).Fits before)
    (spelled : (integer value).Spelled) (apart : startsBlank rest = true) :
    ReadAs before opened (integer value) opened rest := by
  have least : -(2 ^ 63 - 1) ≤ value.toInt := spelled
  have greatest := value.toInt_lt
  by_cases negative : value.toInt < 0
  · obtain rfl : before = .operator := fits negative
    obtain ⟨n, eq⟩ := Int.eq_negSucc_of_lt_zero negative
    obtain ⟨first, digits, chars, start, all, number⟩ := exists_digits (n + 1)
    have small : natural (first :: digits) < 2 ^ 63 := by omega
    have text : (toString value.toInt).toList = '-' :: first :: digits := by
      rw [eq, Int.toString_eq_repr, Int.repr, String.toList_append]
      exact congrArg _ chars
    have same : -Int64.ofNat (natural (first :: digits)) = value := by
      rw [← Int64.toInt_inj, toInt_neg_ofNat small, number, eq, Int.negSucc_eq]
      rfl
    refine ⟨'-', first :: (digits ++ rest), ?_, by decide, ?_⟩
    · rw [spelling, text]
      rfl
    · have minus : readMinus .operator (first :: (digits ++ rest)) = .ok (integer value, rest) := by
        rw [readMinus, if_pos (startsNumeral_of_isDigit start),
          read_of_digits start all small apart]
        simp only [Except.map, negated, same]
      rw [step, if_pos rfl, minus]
      rfl
  · obtain ⟨n, eq⟩ := Int.eq_ofNat_of_zero_le (Int.not_lt.1 negative)
    obtain ⟨first, digits, chars, start, all, number⟩ := exists_digits n
    have small : natural (first :: digits) < 2 ^ 63 := by omega
    have same : Int64.ofNat (natural (first :: digits)) = value := by
      rw [← Int64.toInt_inj, Int64.toInt_ofNat_of_lt small, number, eq]
    refine ⟨first, digits ++ rest, ?_, isBlank_of_isDigit start, ?_⟩
    · rw [spelling, eq]
      exact congrArg (· ++ rest) chars
    · rw [step_of_isDigit start, read_of_digits start all small apart, same]
      rfl

theorem endsWord_of_startsBlank (h : startsBlank rest = true) : endsWord rest = true := by
  cases rest with
  | nil => rfl
  | cons c rest => simp [endsWord, (startsBlank_cons h).1]

theorem readAs_word {name : String} (h : isIdentifier name = true)
    (apart : startsBlank rest = true) : ReadAs before opened (word name) opened rest :=
  exists_step_word h (endsWord_of_startsBlank apart)

/-- A minus sign that negates must not stand directly in front of a number. -/
theorem readAs_symbol {s : Symbol} (fits : (symbol s).Fits before)
    (after : openAfter opened (symbol s) = some opened')
    (apart : s = .neg → startsNumeral rest = false) :
    ReadAs before opened (symbol s) opened' rest := by
  cases role : bracketRole (symbol s) with
  | opening =>
    rcases (Symbol.role_eq_opening_iff s).1 role with rfl | rfl <;> cases after
    · exact ⟨'(', rest, rfl, by decide, rfl⟩
    · exact ⟨'[', rest, rfl, by decide, rfl⟩
  | closing =>
    obtain rfl := (openAfter_of_closing rfl role).1 after
    rcases (Symbol.role_eq_closing_iff s).1 role with rfl | rfl
    · exact ⟨')', rest, rfl, by decide, rfl⟩
    · exact ⟨']', rest, rfl, by decide, rfl⟩
  | neutral =>
    cases (openAfter_of_neutral role).symm.trans after
    cases s with
    | parenLeft | parenRight | bracketLeft | bracketRight => cases role
    | minus | transpose =>
      obtain rfl : before = .operand := fits
      exact ⟨_, rest, rfl, by decide, rfl⟩
    | neg =>
      obtain rfl : before = .operator := fits
      refine ⟨'-', rest, rfl, by decide, ?_⟩
      have minus : readMinus .operator rest = .ok (symbol .neg, rest) := by
        cases rest with
        | nil => rfl
        | cons c rest =>
          rw [readMinus, apart rfl, if_neg Bool.false_ne_true]
      rw [step, if_pos rfl, minus]
      rfl
    | plus | times | divideRight | divideLeft | power | assign | comma | colon | semicolon =>
      exact ⟨_, rest, rfl, by decide, rfl⟩
    | elementTimes | elementDivide | elementPower => exact ⟨'.', _ :: rest, rfl, by decide, rfl⟩

theorem readAs_of_fits (single : t.isDouble = false) (fits : t.Fits before) (spelled : t.Spelled)
    (after : openAfter opened t = some opened') (apart : startsBlank rest = true) :
    ReadAs before opened t opened' rest := by
  cases t with
  | symbol s => exact readAs_symbol fits after fun _ => startsNumeral_of_startsBlank apart
  | integer value =>
    cases after
    exact readAs_integer fits spelled apart
  | word name =>
    cases after
    exact readAs_word spelled apart
  | double => cases single

/-- A text that the tokens are written in is read as them. -/
theorem readFrom_of_written (written : Written ts cs) (single : ∀ t ∈ ts, t.isDouble = false)
    (closed : openBehind opened ts = some []) (placed : Placed before ts)
    (spelled : ∀ t ∈ ts, t.Spelled) : readFrom before opened cs = .ok ts := by
  induction written generalizing before opened with
  | nil =>
    cases closed
    rw [readFrom]
  | blank blank _ ih =>
    rw [Expression.readFrom_blank blank]
    exact ih single closed placed spelled
  | token t apart _ ih =>
    rw [openBehind_cons] at closed
    obtain ⟨opened', after, behind⟩ := Option.bind_eq_some_iff.1 closed
    obtain ⟨c, cs, text, solid, read⟩ :=
      readAs_of_fits (single t (by simp)) placed.1 (spelled t (by simp)) after apart
    rw [text, readFrom_of_step solid read, ih (fun u mem => single u (by simp [mem])) behind
      placed.2 (fun u mem => spelled u (by simp [mem]))]
    rfl

/-- Every list can be written, a blank behind each token. -/
theorem exists_written : ∀ ts : List Token, ∃ cs, startsBlank cs = true ∧ Written ts cs
  | [] => ⟨[], rfl, .nil⟩
  | t :: ts => by
    obtain ⟨cs, apart, rest⟩ := exists_written ts
    exact ⟨' ' :: (t.spelling.toList ++ cs), rfl, .blank (by decide) (.token t apart rest)⟩

/-- **Reading undoes writing.**  A list of tokens without doubles is read from some text iff its
brackets are nested by shape, every minus sign and quote is in its place, and its words and
integers have a spelling; and then it is read from every text that holds the spellings of its
tokens with blanks in between. -/
theorem tokenize_written (single : ∀ t ∈ ts, t.isDouble = false) :
    ((∃ text, tokenize text = .ok ts) ↔ Legible ts) ∧
      (Legible ts → ∀ text : String, Written ts text.toList → tokenize text = .ok ts) := by
  have reads : Legible ts → ∀ text : String, Written ts text.toList → tokenize text = .ok ts := by
    intro legible text written
    rw [tokenize, readFrom_of_written written single (legible.nested.openBehind []) legible.placed
      legible.spelled]
  refine ⟨⟨?_, fun legible => ?_⟩, reads⟩
  · rintro ⟨text, read⟩
    exact legible_of_tokenize read
  obtain ⟨cs, -, written⟩ := exists_written ts
  exact ⟨String.ofList cs, reads legible _ (by rwa [String.toList_ofList])⟩

/-- Three minus signs with an em space and an ideographic space between them: one joins, one
negates, and one is part of a number. -/
theorem tokenize_written_of_signs :
    (∀ t ∈ [word "B", symbol .minus, symbol .neg, integer (-5)], t.isDouble = false) ∧
      tokenize "B -\u2003-\u3000-5" =
        .ok [word "B", symbol .minus, symbol .neg, integer (-5)] := by
  have single : ∀ t ∈ [word "B", symbol .minus, symbol .neg, integer (-5)],
      t.isDouble = false := by simp [isDouble]
  have legible : Legible [word "B", symbol .minus, symbol .neg, integer (-5)] :=
    ⟨nested_of_openBehind rfl, by simp [Placed, Fits, preceding, Symbol.endsOperand],
      by simp [Spelled]; decide⟩
  have number : (integer (-5)).spelling.toList = ['-', '5'] := by decide
  have last : Written [integer (-5)] ['-', '5'] := by
    have := @Written.token [] [] (integer (-5)) rfl .nil
    rwa [List.append_nil, number] at this
  refine ⟨single, (tokenize_written single).2 legible _ ?_⟩
  exact @Written.token _ [' ', '-', '\u2003', '-', '\u3000', '-', '5'] (word "B") rfl
    (.blank rfl (.token (symbol .minus) rfl (.blank rfl (.token (symbol .neg) rfl
      (.blank rfl last)))))

end Token

end MatrixCalc
