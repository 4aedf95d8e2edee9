import MatrixCalc.Proofs.Expression.Reading

/-!
# Numerals in a text

A numeral that is written as numerals are is read from its text, whatever text follows that does
not go on with it.  A minus sign directly in front of it, where no operand stands before, becomes
part of the number.

* `Numeral.WellFormed` : digits where digits must be.
* `Numeral.EndsAt` : the texts that do not go on with a numeral.
* `Numeral.read_text` : **a numeral is read from its text**.
* `Token.step_numeral`, `Token.step_negated` : the token of a numeral, without and with a sign.
-/

namespace MatrixCalc

namespace Numeral

/-- The characters of the fraction. -/
def fractionChars (n : Numeral) : List Char :=
  match n.fraction with
  | some digits => '.' :: digits
  | none => []

/-- The characters of the exponent. -/
def exponentChars (n : Numeral) : List Char :=
  match n.exponent with
  | some (mark, some sign, digits) => mark :: sign :: digits
  | some (mark, none, digits) => mark :: digits
  | none => []

/-- The characters of the numeral. -/
def chars (n : Numeral) : List Char := n.whole ++ n.fractionChars ++ n.exponentChars

/-- The numeral is written with digits where digits must be.  Without digits in front of the point
there are some behind it. -/
structure WellFormed (n : Numeral) : Prop where
  whole : ∀ c ∈ n.whole, c.isDigit = true
  fraction : ∀ digits, n.fraction = some digits → ∀ c ∈ digits, c.isDigit = true
  starts : n.whole = [] → ∃ c digits, n.fraction = some (c :: digits)
  exponent : ∀ mark sign digits, n.exponent = some (mark, sign, digits) →
    (mark = 'e' ∨ mark = 'E') ∧ (∀ c ∈ sign, c = '+' ∨ c = '-') ∧ digits ≠ [] ∧
      ∀ c ∈ digits, c.isDigit = true

/-- The text does not go on with the numeral: it is empty, or starts with something that is neither
part of a word nor a second point.  Where the numeral ends with its point, this point must not
make an operator of what follows. -/
def EndsAt (n : Numeral) : List Char → Prop
  | [] => True
  | c :: rest => isWordPart c = false ∧ (c = '.' → startsElementwise rest = true) ∧
    (n.fraction = some [] → n.exponent = none → startsElementwise (c :: rest) = false)

/-- The text does not start with a digit. -/
def startsDigit : List Char → Bool
  | [] => false
  | c :: _ => c.isDigit

variable {n : Numeral} {c : Char} {digits rest : List Char} {t : Token}

theorem spanDigits_of_not_startsDigit (all : ∀ d ∈ digits, d.isDigit = true)
    (stops : startsDigit rest = false) : spanDigits (digits ++ rest) = (digits, rest) := by
  unfold spanDigits
  rw [List.takeWhile_append_of_pos all, List.dropWhile_append_of_pos all]
  cases rest with
  | nil => simp
  | cons c rest =>
    have noDigit : c.isDigit = false := stops
    simp [noDigit]

theorem isWordPart_of_isDigit (h : c.isDigit = true) : isWordPart c = true := by
  simp [isWordPart, Char.isAlphanum, h]

theorem EndsAt.startsDigit (h : n.EndsAt rest) : startsDigit rest = false := by
  cases rest with
  | nil => rfl
  | cons c rest =>
    refine Bool.eq_false_iff.2 fun digit => ?_
    cases (isWordPart_of_isDigit digit).symm.trans h.1

/-- What follows the digits and the point of a numeral. -/
theorem WellFormed.exponentChars_cases (h : n.WellFormed) : (n.exponent = none ∧
    n.exponentChars = []) ∨ ∃ mark more, n.exponentChars = mark :: more ∧
      (mark = 'e' ∨ mark = 'E') := by
  rcases exponent : n.exponent with _ | ⟨mark, _ | sign, digits⟩
  · exact .inl ⟨rfl, by rw [exponentChars, exponent]⟩
  all_goals exact .inr ⟨mark, _, by rw [exponentChars, exponent], (h.exponent _ _ _ exponent).1⟩

theorem WellFormed.startsDigit_behind (h : n.WellFormed) (ends : n.EndsAt rest) :
    Numeral.startsDigit (n.exponentChars ++ rest) = false := by
  rcases h.exponentChars_cases with ⟨-, none⟩ | ⟨mark, more, some, rfl | rfl⟩
  · rw [none]
    exact ends.startsDigit
  · rw [some]
    rfl
  · rw [some]
    rfl

/-- A point behind the digits and the point of a numeral makes an operator. -/
theorem WellFormed.point_behind (h : n.WellFormed) (ends : n.EndsAt rest) {behind : List Char}
    (point : n.exponentChars ++ rest = '.' :: behind) : startsElementwise behind = true := by
  rcases h.exponentChars_cases with ⟨-, none⟩ | ⟨mark, more, some, rfl | rfl⟩
  · rw [none, List.nil_append] at point
    subst point
    exact ends.2.1 rfl
  · rw [some] at point
    cases (List.cons.inj point).1
  · rw [some] at point
    cases (List.cons.inj point).1

/-- A point without digits behind it is the point of the numeral. -/
theorem WellFormed.point_stays (h : n.WellFormed) (ends : n.EndsAt rest)
    (empty : n.fraction = some []) : startsElementwise (n.exponentChars ++ rest) = false := by
  rcases h.exponentChars_cases with ⟨none, chars⟩ | ⟨mark, more, some, rfl | rfl⟩
  · rw [chars, List.nil_append]
    cases rest with
    | nil => rfl
    | cons c rest => exact ends.2.2 empty none
  · rw [some]
    rfl
  · rw [some]
    rfl

/-- A numeral with a point in front is read up to its exponent. -/
theorem readMantissa_point {behind : List Char} (all : ∀ d ∈ digits, d.isDigit = true)
    (stops : startsDigit behind = false)
    (point : ∀ more, behind = '.' :: more → startsElementwise more = true) :
    readMantissa '.' (digits ++ behind) = .ok (⟨[], some digits, none⟩, behind) := by
  unfold readMantissa
  rw [spanDigits_of_not_startsDigit all stops]
  dsimp only
  split
  · exact if_pos (point _ rfl)
  · rfl
  · rename_i other
    exact (other rfl).elim
  · rename_i other _
    exact (other rfl).elim

/-- A numeral without a point is read up to its exponent. -/
theorem readMantissa_whole {behind : List Char} (first : c.isDigit = true)
    (all : ∀ d ∈ digits, d.isDigit = true) (stops : startsDigit behind = false)
    (point : ∀ more, behind = '.' :: more → startsElementwise more = true) :
    readMantissa c (digits ++ behind) = .ok (⟨c :: digits, none, none⟩, behind) := by
  have noPoint : c ≠ '.' := by
    rintro rfl
    cases first
  unfold readMantissa
  rw [spanDigits_of_not_startsDigit all stops]
  dsimp only
  split
  · exact absurd rfl noPoint
  · exact absurd rfl noPoint
  · exact if_pos (point _ rfl)
  · rfl

/-- A numeral with a point behind digits is read up to its exponent. -/
theorem readMantissa_fraction {behind fraction : List Char} (first : c.isDigit = true)
    (all : ∀ d ∈ digits, d.isDigit = true) (all' : ∀ d ∈ fraction, d.isDigit = true)
    (stops : startsDigit behind = false)
    (stays : startsElementwise (fraction ++ behind) = false) :
    readMantissa c (digits ++ '.' :: (fraction ++ behind)) =
      .ok (⟨c :: digits, some fraction, none⟩, behind) := by
  have noPoint : c ≠ '.' := by
    rintro rfl
    cases first
  unfold readMantissa
  rw [spanDigits_of_not_startsDigit all rfl]
  dsimp only
  split
  · exact absurd rfl noPoint
  · exact absurd rfl noPoint
  · rename_i more _ eq
    cases eq
    rw [stays, if_neg Bool.false_ne_true, spanDigits_of_not_startsDigit all' stops]
  · rename_i other _
    exact (other _ rfl).elim

theorem startsElementwise_of_isDigit (h : c.isDigit = true) :
    startsElementwise (c :: rest) = false := by
  unfold startsElementwise
  split
  iterate 3
    · rename_i eq
      cases (List.cons.inj eq).1
      cases h
  · rfl

theorem readMantissa_text (h : n.WellFormed) (ends : n.EndsAt rest) : ∃ first more,
    n.chars = first :: more ∧
      (first.isDigit = true ∨ first = '.' ∧ startsDigit (more ++ rest) = true) ∧
      readMantissa first (more ++ rest) =
        .ok (⟨n.whole, n.fraction, none⟩, n.exponentChars ++ rest) := by
  have stops := h.startsDigit_behind ends
  have point : ∀ more, n.exponentChars ++ rest = '.' :: more → startsElementwise more = true :=
    fun more => h.point_behind ends
  cases whole : n.whole with
  | nil =>
    obtain ⟨c, digits, fraction⟩ := h.starts whole
    have all := h.fraction _ fraction
    refine ⟨'.', c :: digits ++ n.exponentChars, ?_, .inr ⟨rfl, all c (by simp)⟩, ?_⟩
    · simp [chars, whole, fractionChars, fraction]
    · rw [fraction, List.append_assoc]
      exact readMantissa_point all stops point
  | cons first digits =>
    have all := h.whole
    rw [whole] at all
    obtain ⟨start, all⟩ := List.forall_mem_cons.1 all
    refine ⟨first, digits ++ n.fractionChars ++ n.exponentChars, ?_, .inl start, ?_⟩
    · simp [chars, whole]
    cases fraction : n.fraction with
    | none =>
      rw [fractionChars, fraction, List.append_nil, List.append_assoc]
      exact readMantissa_whole start all stops point
    | some behind =>
      have stays : startsElementwise (behind ++ (n.exponentChars ++ rest)) = false := by
        cases behind with
        | nil => exact h.point_stays ends fraction
        | cons d behind => exact startsElementwise_of_isDigit (h.fraction _ fraction d (by simp))
      simp only [fractionChars, fraction, List.append_assoc, List.cons_append]
      exact readMantissa_fraction start all (h.fraction _ fraction) stops stays

/-- The exponent of a numeral is read. -/
theorem readExponent_text (h : n.WellFormed) (ends : n.EndsAt rest) :
    readExponent ⟨n.whole, n.fraction, none⟩ (n.exponentChars ++ rest) = .ok (n, rest) := by
  obtain ⟨whole, fraction, _ | ⟨mark, sign, digits⟩⟩ := n
  · cases rest with
    | nil => rfl
    | cons c rest =>
      have noMark : ¬ (c = 'e' ∨ c = 'E') := by
        rintro (rfl | rfl) <;> cases ends.1
      exact if_neg noMark
  · obtain ⟨isMark, signs, nonempty, all⟩ := h.exponent mark sign digits rfl
    have cut : splitSign ((sign.toList ++ digits) ++ rest) = (sign, digits ++ rest) := by
      cases sign with
      | some c => rcases signs c rfl with rfl | rfl <;> rfl
      | none =>
        obtain ⟨d, more, rfl⟩ := List.exists_cons_of_ne_nil nonempty
        have digit := all d (by simp)
        change splitSign (d :: (more ++ rest)) = (none, d :: (more ++ rest))
        unfold splitSign
        split
        iterate 2
          · rename_i eq
            cases (List.cons.inj eq).1
            cases digit
        · rfl
    have chars : exponentChars ⟨whole, fraction, some (mark, sign, digits)⟩ =
        mark :: (sign.toList ++ digits) := by
      cases sign <;> rfl
    rw [chars, List.cons_append, readExponent, if_pos isMark, cut]
    dsimp only
    rw [spanDigits_of_not_startsDigit all ends.startsDigit]
    dsimp only
    rw [List.isEmpty_eq_false_iff.2 nonempty, if_neg Bool.false_ne_true]

theorem checkEnd_of_endsAt (ends : n.EndsAt rest) : n.checkEnd rest = .ok () := by
  cases rest with
  | nil => rfl
  | cons c rest =>
    obtain ⟨noPart, point, -⟩ := ends
    rw [checkEnd, noPart, if_neg Bool.false_ne_true]
    exact if_neg fun second => second.2 (point second.1)

/-- **A numeral is read from its text**, whatever follows that does not go on with it. -/
theorem read_text (h : n.WellFormed) (ends : n.EndsAt rest) (value : n.token = .ok t) :
    ∃ first more, n.chars = first :: more ∧
      (first.isDigit = true ∨ first = '.' ∧ startsDigit (more ++ rest) = true) ∧
      read first (more ++ rest) = .ok (t, rest) := by
  obtain ⟨first, more, split, start, mantissa⟩ := readMantissa_text h ends
  refine ⟨first, more, split, start, ?_⟩
  simp only [read, mantissa, readExponent_text h ends, checkEnd_of_endsAt ends, value, bind,
    Except.bind, pure, Except.pure]

end Numeral

namespace Token

variable {n : Numeral} {rest : List Char} {t : Token} {before : Preceding} {opened : List Symbol}

theorem step_of_isDigit (h : c.isDigit = true) : step before opened c cs =
    (Numeral.read c cs).map fun (t, rest) => (t, rest, opened) := by
  have other : ∀ x : Char, x.isDigit = false → c ≠ x := by
    rintro x no rfl
    rw [h] at no
    cases no
  unfold step
  rw [if_neg (other '-' (by decide)), if_neg (other '.' (by decide)),
    if_neg (other '\x27' (by decide)), if_neg (other '(' (by decide)),
    if_neg (other '[' (by decide)), if_neg (other ')' (by decide)),
    if_neg (other ']' (by decide)), if_pos h]

theorem isBlank_of_isDigit (h : c.isDigit = true) : isBlank c = false :=
  isBlank_eq_false_of_isAlphanum (by simp [Char.isAlphanum, h])

theorem startsNumeral_of_isDigit (h : c.isDigit = true) : startsNumeral (c :: cs) = true := by
  unfold startsNumeral
  split
  · rename_i eq
    cases (List.cons.inj eq).1
    cases h
  · rename_i eq
    rw [← (List.cons.inj eq).1, h]
  · rename_i eq
    cases eq

theorem startsNumeral_text {c : Char} {cs : List Char}
    (h : c.isDigit = true ∨ c = '.' ∧ Numeral.startsDigit cs = true) :
    startsNumeral (c :: cs) = true := by
  rcases h with digit | ⟨rfl, digit⟩
  · exact startsNumeral_of_isDigit digit
  · cases cs with
    | nil => cases digit
    | cons d cs => exact digit

theorem readPoint_of_startsDigit {cs : List Char} (h : Numeral.startsDigit cs = true) :
    readPoint cs = Numeral.read '.' cs := by
  unfold readPoint
  split
  iterate 3 cases h
  · exact if_pos h
  · cases h

/-- The token of a numeral. -/
theorem step_numeral (h : n.WellFormed) (ends : n.EndsAt rest) (value : n.token = .ok t) :
    ∃ c cs, n.chars ++ rest = c :: cs ∧ isBlank c = false ∧
      step before opened c cs = .ok (t, rest, opened) := by
  obtain ⟨first, more, split, digit | ⟨rfl, digit⟩, read⟩ := n.read_text h ends value
  · refine ⟨first, more ++ rest, by rw [split]; rfl, isBlank_of_isDigit digit, ?_⟩
    rw [step_of_isDigit digit, read]
    rfl
  · refine ⟨'.', more ++ rest, by rw [split]; rfl, by decide, ?_⟩
    rw [step, if_neg (by decide), if_pos rfl, readPoint_of_startsDigit digit, read]
    rfl

/-- The token of a numeral directly behind a minus sign that does not subtract. -/
theorem step_negated (h : n.WellFormed) (ends : n.EndsAt rest) (value : n.token = .ok t) :
    step .operator opened '-' (n.chars ++ rest) = .ok (t.negated, rest, opened) := by
  obtain ⟨first, more, split, start, read⟩ := n.read_text h ends value
  rw [step, if_pos rfl, split, List.cons_append, readMinus, startsNumeral_text start, if_pos rfl,
    read]
  rfl

end Token

end MatrixCalc
