import MatrixCalc.Decimal.Layout
import MatrixCalc.Json.Lexeme
import MatrixCalc.Proofs.Documents.Shortest

/-!
# Numerals that are written

A double is written positionally or with an exponent, always with a point or an exponent; an integer
is written in digits alone.  Whatever the form, the text is a numeral, and it stands for the number
whose digits were written.

* `Json.Numeral.Spells` : what a text is a numeral of.
* `Layout.spells_decimal` : every form of a decimal spells the decimal.
* `Json.Numeral.exists_of_write` : **the text of a double is rounded to the double**.
* `Json.Numeral.exists_of_int64` : **the text of an integer is the integer**.
-/

namespace MatrixCalc

/-! ### Digits -/

theorem natural_append (a b : List Char) :
    natural (a ++ b) = natural a * 10 ^ b.length + natural b := by
  change Nat.ofDigitChars 10 (a ++ b) 0 = Nat.ofDigitChars 10 a 0 * _ + Nat.ofDigitChars 10 b 0
  rw [Nat.ofDigitChars_append, Nat.ofDigitChars_eq_ofDigitChars_zero, Nat.mul_comm]

theorem natural_replicate_zero (n : Nat) : natural (List.replicate n '0') = 0 := by
  change Nat.ofDigitChars 10 _ 0 = 0
  rw [Nat.ofDigitChars_replicate_zero, Nat.mul_zero]

theorem natural_toDigits (n : Nat) : natural (Nat.toDigits 10 n) = n :=
  Nat.ofDigitChars_toDigits (by decide) (by decide)

theorem isDigit_of_mem_toDigits {n : Nat} {c : Char} (mem : c ∈ Nat.toDigits 10 n) :
    c.isDigit = true :=
  Nat.isDigit_of_mem_toDigits (by decide) (by decide) mem

/-- An integer is its magnitude behind its sign. -/
theorem toList_toString_int (n : Int) :
    (toString n).toList = (if n < 0 then ['-'] else []) ++ Nat.toDigits 10 n.natAbs := by
  cases n with
  | ofNat n => exact Nat.toList_repr
  | negSucc n =>
    rw [if_pos (Int.negSucc_lt_zero n), Int.toString_eq_repr, Int.repr, String.toList_append,
      Nat.toList_repr]
    rfl

/-- A positive number does not start with a zero. -/
theorem head_toDigits {n : Nat} (positive : 0 < n) : (Nat.toDigits 10 n).head? ≠ some '0' := by
  induction n using Nat.strongRecOn with
  | ind n ih =>
    rcases Nat.lt_or_ge n 10 with small | large
    · rw [Nat.toDigits_of_lt_base small]
      interval_cases n <;> decide
    · rw [Nat.toDigits_of_base_le (by decide) large]
      have front := ih (n / 10) (by omega) (by omega)
      rw [List.head?_append_of_ne_nil _ Nat.toDigits_ne_nil]
      exact front

theorem eq_zero_of_head_toDigits {n : Nat} (zero : (Nat.toDigits 10 n).head? = some '0') : n = 0 :=
  Nat.eq_zero_of_not_pos fun positive => head_toDigits positive zero

namespace Json.Numeral

open Lexeme (isNumeralPart)

theorem isNumeralPart_of_isDigit {c : Char} (h : c.isDigit = true) : isNumeralPart c = true := by
  rw [isNumeralPart, h, Bool.true_or]

/-- Reading digits stops in front of a character that is none. -/
theorem span_digits {digits rest : List Char} (all : ∀ c ∈ digits, c.isDigit = true)
    (stop : ∀ c ∈ rest.head?, c.isDigit = false) :
    (digits ++ rest).span Char.isDigit = (digits, rest) := by
  rw [List.span_eq_takeWhile_dropWhile, List.takeWhile_append_of_pos all,
    List.dropWhile_append_of_pos all]
  cases rest with
  | nil => simp
  | cons c rest => simp [stop c rfl]

/-- A numeral is read part by part. -/
theorem unsigned?_of_parts (negative : Bool) (whole tail : List Char) {fraction rest : List Char}
    {exponent : Option Int} (all : ∀ c ∈ whole, c.isDigit = true) (nonempty : whole ≠ [])
    (lead : whole.head? = some '0' → whole.length = 1)
    (stop : ∀ c ∈ tail.head?, c.isDigit = false) (behind : fraction? tail = some (fraction, rest))
    (last : exponent? rest = some exponent) :
    unsigned? negative (whole ++ tail) = some ⟨negative, whole, fraction, exponent⟩ := by
  have legal : ¬(whole.isEmpty = true ∨ (whole.head? = some '0' ∧ whole.length ≠ 1)) := by
    rintro (empty | ⟨zero, long⟩)
    · exact nonempty (List.isEmpty_iff.1 empty)
    · exact long (lead zero)
  simp only [unsigned?, span_digits all stop, if_neg legal, behind, last, Option.bind_eq_bind,
    Option.bind_some, pure]

theorem fraction?_point {fraction : List Char} (rest : List Char)
    (all : ∀ c ∈ fraction, c.isDigit = true) (nonempty : fraction ≠ [])
    (stop : ∀ c ∈ rest.head?, c.isDigit = false) :
    fraction? ('.' :: (fraction ++ rest)) = some (fraction, rest) := by
  rw [fraction?, span_digits all stop]
  cases fraction with
  | nil => exact absurd rfl nonempty
  | cons => rfl

theorem exponentDigits?_toDigits (n : Nat) : exponentDigits? (Nat.toDigits 10 n) = some n := by
  have all : (Nat.toDigits 10 n).all Char.isDigit = true :=
    List.all_eq_true.2 fun _ => isDigit_of_mem_toDigits
  rw [exponentDigits?, all, natural_toDigits]
  simp [Nat.toDigits_ne_nil]

/-- The text spells the number, whatever the sign in front of it. -/
structure Spells (cs : List Char) (v : ℚ) : Prop where
  /-- No other character occurs. -/
  parts : ∀ c ∈ cs, isNumeralPart c = true
  /-- The text is not taken for a sign. -/
  starts : ∃ c ∈ cs.head?, c.isDigit = true
  /-- The text is read. -/
  reads (negative : Bool) :
    ∃ n, unsigned? negative cs = some n ∧ n.negative = negative ∧ n.value = v

/-- Digits with a point among them. -/
theorem spells_pointed (whole fraction : List Char) (all : ∀ c ∈ whole, c.isDigit = true)
    (nonempty : whole ≠ []) (lead : whole.head? = some '0' → whole.length = 1)
    (all' : ∀ c ∈ fraction, c.isDigit = true) (nonempty' : fraction ≠ []) :
    Spells (whole ++ '.' :: fraction)
      (natural (whole ++ fraction) * 10 ^ (-(fraction.length : Int))) where
  parts c mem := by
    rcases List.mem_append.1 mem with mem | mem
    · exact isNumeralPart_of_isDigit (all c mem)
    rcases List.mem_cons.1 mem with rfl | mem
    · decide
    · exact isNumeralPart_of_isDigit (all' c mem)
  starts := by
    obtain ⟨c, rest, rfl⟩ := List.exists_cons_of_ne_nil nonempty
    exact ⟨c, rfl, all c List.mem_cons_self⟩
  reads negative := by
    have behind := fraction?_point [] all' nonempty' (by simp)
    rw [List.append_nil] at behind
    refine ⟨_, unsigned?_of_parts negative whole _ all nonempty lead ?_ behind rfl, rfl, ?_⟩
    · simp
    · simp [value]

/-- The exponent of a number. -/
theorem exponent?_signed (n : Int) :
    exponent? ('e' :: (if n < 0 then '-' else '+') :: Nat.toDigits 10 n.natAbs) =
      some (some n) := by
  by_cases negative : n < 0
  · have back : -(n.natAbs : Int) = n := by omega
    rw [if_pos negative, exponent?, if_pos (.inl rfl)]
    simp only [exponentDigits?_toDigits]
    exact congrArg (fun k => some (some k)) back
  · have back : (n.natAbs : Int) = n := by omega
    rw [if_neg negative, exponent?, if_pos (.inl rfl)]
    simp only [exponentDigits?_toDigits]
    exact congrArg (fun k => some (some k)) back

/-- One digit before the point, if there are more behind it, and an exponent. -/
theorem spells_scientific {first : Char} {fraction tail : List Char} {n : Int}
    (start : first.isDigit = true) (all : ∀ c ∈ fraction, c.isDigit = true)
    (parts : ∀ c ∈ tail, isNumeralPart c = true) (last : exponent? ('e' :: tail) = some (some n)) :
    Spells (first :: ((if fraction = [] then [] else '.' :: fraction) ++ 'e' :: tail))
      (natural (first :: fraction) * 10 ^ (n - fraction.length)) where
  parts c mem := by
    have point : isNumeralPart '.' = true := by decide
    have mark : isNumeralPart 'e' = true := by decide
    have others : ∀ c ∈ (if fraction = [] then [] else '.' :: fraction),
        isNumeralPart c = true := by
      intro c mem
      split at mem
      · cases mem
      rcases List.mem_cons.1 mem with rfl | mem
      · exact point
      · exact isNumeralPart_of_isDigit (all c mem)
    rcases List.mem_cons.1 mem with rfl | mem
    · exact isNumeralPart_of_isDigit start
    rcases List.mem_append.1 mem with mem | mem
    · exact others c mem
    rcases List.mem_cons.1 mem with rfl | mem
    · exact mark
    · exact parts c mem
  starts := ⟨first, rfl, start⟩
  reads negative := by
    have behind : fraction? ((if fraction = [] then [] else '.' :: fraction) ++ 'e' :: tail) =
        some (fraction, 'e' :: tail) := by
      split
      · rename_i none
        rw [none]
        rfl
      · rename_i nonempty
        exact fraction?_point _ all nonempty (by simp)
    refine ⟨_, unsigned?_of_parts negative [first] _ ?_ (List.cons_ne_nil _ _) (fun _ => rfl)
      ?_ behind last, rfl, rfl⟩
    · rintro c mem
      rw [List.mem_singleton.1 mem, start]
    · split <;> simp

/-! ### Digits around a point -/

variable {ds : List Char}

theorem isDigit_of_mem_replicate {k : Nat} {c : Char} (mem : c ∈ List.replicate k '0') :
    c.isDigit = true := by
  rw [List.eq_of_mem_replicate mem]
  rfl

/-- Digits behind the point and zeros. -/
theorem spells_small (all : ∀ c ∈ ds, c.isDigit = true) (nonempty : ds ≠ []) (k : Nat) :
    Spells ('0' :: '.' :: (List.replicate k '0' ++ ds))
      (natural ds * 10 ^ (-(k + ds.length : Nat) : Int)) := by
  have spells := spells_pointed ['0'] (List.replicate k '0' ++ ds)
    (fun _ => isDigit_of_mem_replicate (k := 1)) (List.cons_ne_nil _ _) (fun _ => rfl)
    (fun c mem => (List.mem_append.1 mem).elim isDigit_of_mem_replicate (all c))
    (List.append_ne_nil_of_right_ne_nil _ nonempty)
  have zero : natural ['0'] = 0 := rfl
  rwa [natural_append, natural_append, natural_replicate_zero, zero, Nat.zero_mul, Nat.zero_mul,
    Nat.zero_add, Nat.zero_add, List.length_append, List.length_replicate] at spells

/-- Digits and zeros before the point. -/
theorem spells_whole (all : ∀ c ∈ ds, c.isDigit = true) (nonempty : ds ≠ []) (k : Nat)
    (lead : ds.head? = some '0' → ds.length + k = 1) :
    Spells (ds ++ List.replicate k '0' ++ '.' :: ['0']) (natural ds * 10 ^ k) := by
  have spells := spells_pointed (ds ++ List.replicate k '0') ['0']
    (fun c mem => (List.mem_append.1 mem).elim (all c) isDigit_of_mem_replicate)
    (List.append_ne_nil_of_left_ne_nil nonempty _)
    (fun zero => by
      rw [List.head?_append_of_ne_nil _ nonempty] at zero
      rw [List.length_append, List.length_replicate, lead zero])
    (fun _ => isDigit_of_mem_replicate (k := 1)) (List.cons_ne_nil _ _)
  have zero : natural ['0'] = 0 := rfl
  rw [natural_append, natural_append, natural_replicate_zero, zero, List.length_replicate] at spells
  simpa using spells

/-- Digits on both sides of the point. -/
theorem spells_split (all : ∀ c ∈ ds, c.isDigit = true) {k : Nat} (before : 0 < k)
    (behind : k < ds.length) (lead : ds.head? ≠ some '0') :
    Spells (ds.take k ++ '.' :: ds.drop k) (natural ds * 10 ^ (-(ds.length - k : Nat) : Int)) := by
  have spells := spells_pointed (ds.take k) (ds.drop k)
    (fun c mem => all c (List.mem_of_mem_take mem))
    (List.ne_nil_of_length_pos (by rw [List.length_take]; omega))
    (fun zero => absurd (by rwa [List.head?_take, if_neg before.ne'] at zero) lead)
    (fun c mem => all c (List.mem_of_mem_drop mem))
    (List.ne_nil_of_length_pos (by rw [List.length_drop]; omega))
  rwa [List.take_append_drop, List.length_drop] at spells

end Json.Numeral

namespace Layout

open Json.Numeral

variable {d : Decimal}

theorem spells_positionally (trimmed : d.coefficient = 0 → d.exponent = 0) :
    Spells (Layout.json.positionally d.digits d.leading).toList d.value := by
  obtain ⟨c, e⟩ := d
  have all : ∀ c' ∈ Nat.toDigits 10 c, c'.isDigit = true := fun _ => isDigit_of_mem_toDigits
  have length := Nat.length_toDigits_pos (b := 10) (n := c)
  have number := natural_toDigits c
  have lead : (Nat.toDigits 10 c).head? = some '0' → c = 0 := eq_zero_of_head_toDigits
  have single : c = 0 → (Nat.toDigits 10 c).length = 1 := fun zero => by
    rw [zero, Nat.toDigits_zero]
    rfl
  dsimp only [Decimal.digits, Decimal.leading, Decimal.length, Decimal.value] at trimmed ⊢
  generalize Nat.toDigits 10 c = ds at *
  unfold positionally
  split
  · rename_i small
    obtain ⟨k, gap⟩ := Int.eq_ofNat_of_zero_le (a := -(e + ds.length - 1) - 1) (by omega)
    have spells := spells_small all (List.ne_nil_of_length_pos length) k
    rw [number, show (-(k + ds.length : Nat) : Int) = e by omega] at spells
    rw [gap, Int.toNat_natCast, String.toList_append, String.toList_ofList, String.toList_ofList]
    exact spells
  dsimp only
  split
  · rename_i _ short
    obtain ⟨k, rfl⟩ := Int.eq_ofNat_of_zero_le (a := e) (by omega)
    have spells := spells_whole all (List.ne_nil_of_length_pos length) k fun zero => by
      have := trimmed (lead zero)
      have := single (lead zero)
      omega
    rw [show ((k : Int) + ds.length - 1).toNat + 1 - ds.length = k by omega, String.toList_append,
      String.toList_ofList, zpow_natCast, ← number]
    exact spells
  · rename_i _ long
    have spells := spells_split (k := (e + ds.length - 1).toNat + 1) all (Nat.succ_pos _) (by omega)
      fun zero => by
        have := single (lead zero)
        omega
    rw [number, show (-(ds.length - ((e + ds.length - 1).toNat + 1) : Nat) : Int) = e by omega]
      at spells
    rw [String.toList_append, String.toList_append, String.toList_ofList, String.toList_ofList,
      String.toList_ofList, List.append_assoc]
    exact spells

/-- The exponent of a result is written with its sign. -/
theorem exponent_toList (leading : Int) :
    ((if 0 ≤ leading then Layout.json.exponentMark else "e") ++ toString leading).toList =
      'e' :: (if leading < 0 then '-' else '+') :: Nat.toDigits 10 leading.natAbs := by
  rw [String.toList_append, toList_toString_int]
  by_cases negative : leading < 0
  · rw [if_neg (Int.not_le.2 negative), if_pos negative, if_pos negative]
    rfl
  · rw [if_pos (Int.not_lt.1 negative), if_neg negative, if_neg negative]
    rfl

theorem spells_withExponent (d : Decimal) :
    Spells (Layout.json.withExponent d.digits d.leading).toList d.value := by
  obtain ⟨c, e⟩ := d
  have all : ∀ c' ∈ Nat.toDigits 10 c, c'.isDigit = true := fun _ => isDigit_of_mem_toDigits
  have number := natural_toDigits c
  obtain ⟨first, fraction, split⟩ :=
    List.exists_cons_of_ne_nil (Nat.toDigits_ne_nil (b := 10) (n := c))
  dsimp only [Decimal.digits, Decimal.leading, Decimal.length, Decimal.value]
  rw [split] at all number ⊢
  have parts : ∀ c ∈ (if e + (first :: fraction).length - 1 < 0 then '-' else '+') ::
      Nat.toDigits 10 (e + (first :: fraction).length - 1).natAbs,
      Json.Lexeme.isNumeralPart c = true := by
    intro c mem
    rcases List.mem_cons.1 mem with rfl | mem
    · split <;> decide
    · exact isNumeralPart_of_isDigit (isDigit_of_mem_toDigits mem)
  have spells := spells_scientific (all first List.mem_cons_self)
    (fun c mem => all c (List.mem_cons_of_mem _ mem)) parts (exponent?_signed _)
  have shift : e + (first :: fraction).length - 1 - fraction.length = e := by
    rw [List.length_cons]
    omega
  rw [shift, number] at spells
  unfold withExponent
  dsimp only
  rw [String.append_assoc, String.toList_append, exponent_toList]
  cases fraction <;> exact String.toList_ofList ▸ spells

theorem spells_decimal (trimmed : d.coefficient = 0 → d.exponent = 0) :
    Spells (Layout.json.decimal d).toList d.value := by
  unfold decimal
  split
  · exact spells_positionally trimmed
  · exact spells_withExponent d

end Layout

namespace Json.Numeral

open Lexeme (isNumeralPart)

/-- A sign in front of digits is read as the sign. -/
theorem ofString?_signed {text : String} (starts : ∃ c ∈ text.toList.head?, c.isDigit = true)
    (negative : Bool) :
    ofString? ((if negative then "-" else "") ++ text) = unsigned? negative text.toList := by
  unfold ofString?
  rw [String.toList_append]
  cases negative with
  | true => rfl
  | false =>
    obtain ⟨c, head, digit⟩ := starts
    have front : ("" : String).toList ++ text.toList = text.toList := rfl
    simp only [Bool.false_eq_true, if_false]
    rw [front]
    split
    · rename_i rest same
      rw [same] at head
      cases head
      cases digit
    · rfl

theorem parts_signed {text : String} (parts : ∀ c ∈ text.toList, isNumeralPart c = true)
    (negative : Bool) :
    ∀ c ∈ ((if negative then "-" else "") ++ text).toList, isNumeralPart c = true := by
  intro c mem
  rw [String.toList_append] at mem
  rcases List.mem_append.1 mem with mem | mem
  · cases negative with
    | true =>
      rw [List.mem_singleton.1 mem]
      decide
    | false => cases mem
  · exact parts c mem

/-- **The text of a double is a numeral that is rounded to the double.** -/
theorem exists_of_write {x : Float} (finite : x.isFinite = true) :
    (∃ n, ofString? (Layout.json.write x) = some n ∧ n.RoundsTo x) ∧
      ∀ c ∈ (Layout.json.write x).toList, isNumeralPart c = true := by
  obtain ⟨m, q, narrow, magnitude⟩ := Magnitude.isFinite_iff_exists.1 finite
  have spells : Spells (Layout.json.decimal (Magnitude.shortest .toEven m q narrow)).toList _ :=
    Layout.spells_decimal (Decimal.exponent_trim _)
  have text : Layout.json.write x = (if (Magnitude.ofFloat x).1 then "-" else "") ++
      Layout.json.decimal (Magnitude.shortest .toEven m q narrow) := by
    unfold Layout.write Layout.writeWith
    generalize Magnitude.ofFloat x = parts at *
    obtain ⟨negative, magnitude'⟩ := parts
    cases magnitude
    rfl
  obtain ⟨n, read, sign, value⟩ := spells.reads (Magnitude.ofFloat x).1
  rw [text]
  refine ⟨⟨n, (ofString?_signed spells.starts _).trans read, ?_⟩, parts_signed spells.parts _⟩
  exact roundsTo_of_between sign.symm magnitude (value ▸ Magnitude.between_shortest _ _ _ _)

/-- Digits alone are a numeral without fraction and exponent. -/
theorem unsigned?_toDigits (negative : Bool) (n : Nat) :
    unsigned? negative (Nat.toDigits 10 n) = some ⟨negative, Nat.toDigits 10 n, [], none⟩ := by
  have whole := unsigned?_of_parts negative _ []
    (fun _ => isDigit_of_mem_toDigits (n := n)) Nat.toDigits_ne_nil (fun zero => ?_) (by simp)
    rfl rfl
  · rwa [List.append_nil] at whole
  · rw [eq_zero_of_head_toDigits zero, Nat.toDigits_zero]
    rfl

/-- **The text of an integer is a numeral that is the integer.** -/
theorem exists_of_int64 (k : Int64) :
    (∃ n, ofString? (toString k.toInt) = some n ∧ n.toInt64? = some k) ∧
      ∀ c ∈ (toString k.toInt).toList, isNumeralPart c = true := by
  have low := k.le_toInt
  have high := k.toInt_lt
  have back := k.ofInt_toInt
  have digits : (toString k.toInt.natAbs).toList = Nat.toDigits 10 k.toInt.natAbs := Nat.toList_repr
  have all : ∀ c ∈ Nat.toDigits 10 k.toInt.natAbs, c.isDigit = true := fun _ =>
    isDigit_of_mem_toDigits
  have text : toString k.toInt =
      (if decide (k.toInt < 0) then "-" else "") ++ toString k.toInt.natAbs := by
    rw [← String.toList_inj, toList_toString_int, String.toList_append, digits]
    by_cases negative : k.toInt < 0 <;> simp [negative]
  have starts : ∃ c ∈ (toString k.toInt.natAbs).toList.head?, c.isDigit = true := by
    obtain ⟨c, rest, split⟩ := List.exists_cons_of_ne_nil (digits ▸ Nat.toDigits_ne_nil)
    refine ⟨c, by rw [split]; rfl, all c ?_⟩
    rw [← digits, split]
    exact List.mem_cons_self
  rw [text]
  refine ⟨⟨_, by rw [ofString?_signed starts, digits, unsigned?_toDigits], ?_⟩,
    parts_signed (fun c mem => isNumeralPart_of_isDigit (all c (digits ▸ mem))) _⟩
  simp only [toInt64?, List.isEmpty_nil, Option.isNone_none, and_self, if_true, natural_toDigits,
    Nat.pow_eq]
  by_cases negative : k.toInt < 0
  · have magnitude : -(k.toInt.natAbs : Int) = k.toInt := by omega
    rw [if_pos (decide_eq_true negative), if_neg (by omega), magnitude, back]
  · have magnitude : (k.toInt.natAbs : Int) = k.toInt := by omega
    rw [if_neg (by simpa using negative), if_pos (by omega), magnitude, back]

end Json.Numeral

end MatrixCalc
