import MatrixCalc.Proofs.Expression.Integers
import MatrixCalc.Value

/-!
# Integers of a report

The line of a report about an integer is a statement that assigns the integer.  A negative integer
is written as a minus sign and its magnitude.  The digits are read before the sign becomes part of
the number, and have to be a 64-bit integer of their own; the magnitude of the smallest integer is
none.

* `Expression.exists_number` : the text of an integer spells a number with its sign.
* `Token.tokenize_integer` : every integer but the smallest is read from its text.
* `Session.process_reported` : **the line of a report gives the integer back, unless it is the
  smallest**.
-/

namespace MatrixCalc

open Expression Token

/-! ### One integer -/

/-- An integer, unless it is the smallest, is written as a number, behind a sign if it is
negative. -/
theorem Expression.exists_number {v : Int64} (fits : v ≠ Int64.minValue) :
    ∃ (sign : Bool) (x : Number), x.signed sign = .inl v ∧
      ∀ cs, Stops cs → ∀ pieces, Spells pieces cs →
        Spells (.inr (.number sign x) :: pieces) ((toString v.toInt).toList ++ cs) := by
  have least : Int64.minValue.toInt < v.toInt :=
    lt_of_le_of_ne (toInt_minValue ▸ v.le_toInt) fun same => fits (Int64.toInt_inj.1 same.symm)
  have greatest := v.toInt_lt
  rw [toInt_minValue] at least
  by_cases negative : v.toInt < 0
  · obtain ⟨n, eq⟩ := Int.eq_negSucc_of_lt_zero negative
    have small : n + 1 < 2 ^ 63 := by omega
    refine ⟨true, .ofNat (n + 1) small, ?_, fun cs stops pieces more => ?_⟩
    · have same : -Int64.ofNat (n + 1) = v := by
        rw [← Int64.toInt_inj, toInt_neg_ofNat small, eq, Int.negSucc_eq]
        rfl
      exact congrArg Sum.inl same
    · have text : (toString v.toInt).toList = '-' :: (toString (n + 1)).toList := by
        rw [eq, Int.toString_eq_repr, Int.repr, String.toList_append]
        rfl
      have spells := Spells.signed (.ofNat (n + 1) small) (stops.endsAt _ small) more
      rwa [Number.chars_ofNat, ← List.cons_append, ← text] at spells
  · obtain ⟨n, eq⟩ := Int.eq_ofNat_of_zero_le (Int.not_lt.1 negative)
    have small : n < 2 ^ 63 := by omega
    refine ⟨false, .ofNat n small, ?_, fun cs stops pieces more => ?_⟩
    · have same : Int64.ofNat n = v := by
        rw [← Int64.toInt_inj, Int64.toInt_ofNat_of_lt small, eq]
      exact congrArg Sum.inl same
    · have spells := Spells.number (.ofNat n small) (stops.endsAt _ small) more
      rw [Number.chars_ofNat] at spells
      rw [eq]
      exact spells

namespace Token

/-- **Every integer but the smallest is read from its text.** -/
theorem tokenize_integer {v : Int64} (fits : v ≠ Int64.minValue) :
    tokenize (toString v.toInt) = .ok [integer v] := by
  obtain ⟨sign, x, signed, spells⟩ := exists_number fits
  have text := spells [] trivial [] .nil
  rw [List.append_nil] at text
  have placed : Expression.Placed .operator [] [.inr (.number sign x)] := by
    cases sign
    · exact ⟨trivial, rfl⟩
    · exact ⟨rfl, rfl⟩
  rw [tokenize, readFrom_of_spells text placed]
  show Except.ok [(x.signed sign).elim Token.integer Token.double] = _
  rw [signed]
  rfl

end Token

namespace Session

variable {s : Session} {target source : String} {v : Int64}

/-! ### One assignment -/

/-- The line of a report about an integer is an assignment of a number. -/
theorem spells_report (named : isIdentifier target = true) {pieces : List (Symbol ⊕ Operand)}
    (right : Spells pieces (toString v.toInt).toList) :
    Spells (.inr (.word target) :: .inl .assign :: pieces)
      (target ++ " = " ++ toString v.toInt).toList := by
  have chars : (target ++ " = " ++ toString v.toInt).toList = target.toList ++ ' ' ::
      (Symbol.assign.spelling.toList ++ ' ' :: (toString v.toInt).toList) := by
    have middle : (" = " : String).toList = [' ', '=', ' '] := rfl
    have sign : Symbol.assign.spelling.toList = ['='] := rfl
    simp [middle, sign]
  rw [chars]
  exact .word named rfl (.blank (by decide) (.other (by decide) (.blank (by decide) right)))

/-- The line of a report about any integer but the smallest gives a new name the integer. -/
theorem process_line (wellFormed : s.WellFormed) (free : s.scope.find? target = none)
    (named : bindable target = true) (fits : v ≠ Int64.minValue) :
    (∃ program, (s.process (target ++ " = " ++ toString v.toInt)).result = .ok program) ∧
      (s.process (target ++ " = " ++ toString v.toInt)).session.datum? target =
        some ⟨.integer, v⟩ := by
  obtain ⟨unreserved, word⟩ : isReserved target = false ∧ isIdentifier target = true := by
    simpa [bindable] using named
  obtain ⟨sign, x, signed, spells⟩ := exists_number fits
  have right := spells [] trivial [] .nil
  rw [List.append_nil] at right
  have assigns := assigns_of_spells wellFormed (spells_report word right) (.leaf _) (by simp)
    (fun a mem => by
      obtain rfl : a = .number sign x := by simpa using mem
      trivial)
  have value : s.valueOf (.leaf (.number sign x)) = some ⟨.integer, v⟩ := by
    show some (Datum.ofNumber (x.signed sign)) = _
    rw [signed]
    rfl
  have compiles := assigns.compiles_iff.2
    ⟨unreserved, by decide, fun w found => by cases free.symm.trans found⟩
  have succeeds := assigns.succeeds_iff.2 ⟨compiles, by rw [value]; rfl⟩
  refine ⟨succeeds, ?_⟩
  rw [assigns.stores succeeds, value, Option.bind_some, stored?, free]

/-! ### The smallest integer -/

/-- A statement that cannot be read fails and changes nothing. -/
theorem process_of_unreadable {e : Error} (h : Token.tokenize source = .error e) :
    (s.process source).result = .error e ∧ (s.process source).session = s := by
  have failed := compile_of_unreadable (s := s) h
  have kept := compile_of_error failed
  unfold process
  generalize s.compile source = compiled at failed kept ⊢
  obtain ⟨result, session, events⟩ := compiled
  cases failed
  exact ⟨rfl, kept⟩

/-- The magnitude of the smallest integer is too large for a number. -/
theorem readFrom_smallest : readFrom .operand [] (" = " ++ toString Int64.minValue.toInt).toList =
    .error (.integerTooLarge "9223372036854775808") := by
  cbv

theorem tokenize_smallest (word : isIdentifier target = true) :
    tokenize (target ++ " = " ++ toString Int64.minValue.toInt) =
      .error (.malformed (.integerTooLarge "9223372036854775808")) := by
  rw [tokenize, String.append_assoc, String.toList_append, readFrom_word word rfl,
    readFrom_smallest]
  rfl

/-- **The line of a report gives the integer back, unless it is the smallest.**  For every integer
`v` but `-2 ^ 63` the decimal text of `v` is read as the integer alone, and in every session the
line that a report has for a variable of value `v` gives a name that is not bound yet an integer
variable that holds `v`.  The text of `-2 ^ 63` and the line about it are refused, because the
digits without the sign are too large; the session stays as it was. -/
theorem process_reported {h : History} (reachable : h.Reachable) {target : String}
    (free : h.session.scope.find? target = none) (named : bindable target = true) (v : Int64) :
    ∃ line, (Value.integer v).report target = [line] ∧ line = target ++ " = " ++ toString v.toInt ∧
    (v ≠ Int64.minValue → tokenize (toString v.toInt) = .ok [integer v] ∧
      (∃ program, (h.session.process line).result = .ok program) ∧
      (h.session.process line).session.datum? target = some ⟨.integer, v⟩) ∧
    (v = Int64.minValue →
      tokenize (toString v.toInt) = .error (.malformed (.integerTooLarge "9223372036854775808")) ∧
      (h.session.process line).result =
        .error (.malformed (.integerTooLarge "9223372036854775808")) ∧
      (h.session.process line).session = h.session) := by
  refine ⟨_, rfl, rfl, fun fits => ?_, ?_⟩
  · exact ⟨tokenize_integer fits, process_line reachable.wellFormed free named fits⟩
  · rintro rfl
    have word : isIdentifier target = true := by
      simp only [bindable, Bool.and_eq_true] at named
      exact named.2
    exact ⟨by cbv, process_of_unreadable (tokenize_smallest word)⟩

/-- The integer `-5` comes back. -/
theorem process_reported_of_negative : ∃ (h : History) (line : String), h.Reachable ∧
    (Value.integer (-5)).report "t" = [line] ∧ line = "t = -5" ∧
    (h.session.process line).session.datum? "t" = some ⟨.integer, -5⟩ := by
  obtain ⟨line, report, text, others, -⟩ :=
    @process_reported {} .refl "t" rfl (by decide +kernel) (-5)
  exact ⟨{}, line, .refl, report, text, (others (by decide)).2.2⟩

/-- The smallest integer does not come back. -/
theorem smallest_not_reported : ¬ ∀ (h : History) (target : String) (v : Int64), h.Reachable →
    h.session.scope.find? target = none → bindable target = true →
    tokenize (toString v.toInt) = .ok [integer v] ∧
    (h.session.process (target ++ " = " ++ toString v.toInt)).session.datum? target =
      some ⟨.integer, v⟩ := by
  intro comes_back
  have read := (comes_back {} "t" Int64.minValue .refl rfl (by decide +kernel)).1
  have refused : tokenize (toString Int64.minValue.toInt) =
      .error (.malformed (.integerTooLarge "9223372036854775808")) := by cbv
  cases refused.symm.trans read

end Session

end MatrixCalc
