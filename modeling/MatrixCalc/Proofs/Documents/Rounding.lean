import Mathlib
import MatrixCalc.Json.Numeral

/-!
# Numbers rounded to doubles

A numeral stands for a rational number, and so does the magnitude of a double.  `RoundsTo` says that
a double is the nearest one to a numeral, the even one of two.  Without their signs the doubles are
in the order of their bits, so the neighbours of a double are one step away, and what lies between
the midpoints to them is rounded to it.

* `Magnitude.apart` : how far the neighbours of a double are.
* `Json.Numeral.RoundsTo.unique` : **a numeral is rounded to one double at most**.
* `Json.Numeral.roundsTo_of_between` : **what lies between the midpoints is rounded back**.
-/

namespace MatrixCalc

/-! ### Values -/

/-- The number that a magnitude stands for.  What is too large for a double counts as the power of
two above all doubles, as it does in rounding. -/
def Magnitude.value : Magnitude → ℚ
  | .nan => 0
  | .infinite => 2 ^ (1024 : ℤ)
  | .finite m q _ => m * 2 ^ q

namespace Json.Numeral

/-- The number that a numeral stands for, without its sign. -/
def value (n : Numeral) : ℚ :=
  natural (n.whole ++ n.fraction) * 10 ^ (n.exponent.getD 0 - n.fraction.length)

/-- The double is the numeral rounded to nearest, ties to even.  A numeral that would be rounded to
infinity is rounded to no double. -/
structure RoundsTo (n : Numeral) (x : Float) : Prop where
  /-- The double is a number. -/
  finite : x.isFinite = true
  /-- The sign is that of the numeral, for a zero too. -/
  sign : (Magnitude.ofFloat x).1 = n.negative
  /-- No double is nearer to the numeral. -/
  nearest (y : Float) (number : (Magnitude.ofFloat y).2 ≠ .nan) :
    |n.value - (Magnitude.ofFloat x).2.value| ≤ |n.value - (Magnitude.ofFloat y).2.value|
  /-- Another double is as near only if the last bit is zero. -/
  even (y : Float) (number : (Magnitude.ofFloat y).2 ≠ .nan)
    (other : (Magnitude.ofFloat y).2.value ≠ (Magnitude.ofFloat x).2.value)
    (tie : |n.value - (Magnitude.ofFloat x).2.value| = |n.value - (Magnitude.ofFloat y).2.value|) :
    x.toBits.toNat % 2 = 0

end Json.Numeral

/-! ### Distances -/

section Distance

variable {a b v : ℚ}

theorem abs_sub_lt_iff_left (less : a < b) : |v - a| < |v - b| ↔ 2 * v < a + b := by
  rw [← sq_lt_sq]
  constructor <;> intro h <;> nlinarith

theorem abs_sub_lt_iff_right (less : a < b) : |v - b| < |v - a| ↔ a + b < 2 * v := by
  rw [← sq_lt_sq]
  constructor <;> intro h <;> nlinarith

theorem abs_sub_le_iff_left (less : a < b) : |v - a| ≤ |v - b| ↔ 2 * v ≤ a + b := by
  rw [← not_lt, abs_sub_lt_iff_right less, not_lt]

theorem abs_sub_le_iff_right (less : a < b) : |v - b| ≤ |v - a| ↔ a + b ≤ 2 * v := by
  rw [← not_lt, abs_sub_lt_iff_left less, not_lt]

end Distance

/-! ### The doubles in order -/

namespace Magnitude

open Float.Model

/-- The magnitude with the given bits, in units of the smallest one. -/
def units (bits : Nat) : Nat :=
  if bits / 2 ^ 52 = 0 then bits % 2 ^ 52
  else (bits % 2 ^ 52 + 2 ^ 52) * 2 ^ (bits / 2 ^ 52 - 1)

/-- Magnitudes with consecutive bits are neighbours. -/
theorem units_succ (bits : Nat) : units (bits + 1) = units bits + 2 ^ (bits / 2 ^ 52 - 1) := by
  unfold units
  by_cases carry : bits % 2 ^ 52 + 1 = 2 ^ 52
  · have exponent : (bits + 1) / 2 ^ 52 = bits / 2 ^ 52 + 1 := by omega
    have fraction : (bits + 1) % 2 ^ 52 = 0 := by omega
    rw [exponent, fraction]
    cases bits / 2 ^ 52 with
    | zero =>
      simp only [Nat.zero_sub, pow_zero, if_true, Nat.reduceAdd, one_ne_zero, if_false]
      omega
    | succ e =>
      simp only [Nat.add_sub_cancel, if_neg (Nat.succ_ne_zero _), pow_succ 2 e]
      rw [show bits % 2 ^ 52 = 2 ^ 52 - 1 by omega]
      ring
  · have exponent : (bits + 1) / 2 ^ 52 = bits / 2 ^ 52 := by omega
    have fraction : (bits + 1) % 2 ^ 52 = bits % 2 ^ 52 + 1 := by omega
    rw [exponent, fraction]
    split
    · rename_i small
      rw [small, Nat.zero_sub, pow_zero]
    · ring

theorem units_strictMono : StrictMono units :=
  strictMono_nat_of_lt_succ fun bits => by
    rw [units_succ]
    exact Nat.lt_add_of_pos_right (by positivity)

/-- The bits of a double without its sign. -/
def bitsOf (x : Float) : Nat := x.toBits.toNat % 2 ^ 63

variable {x y : Float} {m : Nat} {q : Int} {narrow : Bool}

theorem ofFloat_snd (x : Float) : (ofFloat x).2 =
    if bitsOf x / 2 ^ 52 = 2047 then if bitsOf x % 2 ^ 52 = 0 then .infinite else .nan
    else if bitsOf x / 2 ^ 52 = 0 then .finite (bitsOf x % 2 ^ 52) (-1074) false
    else .finite (bitsOf x % 2 ^ 52 + 2 ^ 52) ((bitsOf x / 2 ^ 52 : Nat) - 1075)
      (bitsOf x % 2 ^ 52 = 0 && 1 < bitsOf x / 2 ^ 52) := by
  have exponent : x.toBits.toNat / Nat.pow 2 52 % Nat.pow 2 11 = bitsOf x / 2 ^ 52 := by
    simp only [bitsOf, Nat.pow_eq]
    omega
  have fraction : x.toBits.toNat % Nat.pow 2 52 = bitsOf x % 2 ^ 52 := by
    simp only [bitsOf, Nat.pow_eq]
    omega
  simp only [ofFloat, exponent, fraction, Nat.pow_eq]

theorem toNat_unpackExponent (bits : UInt64) :
    (@UnpackedFloat.unpackExponent Format.binary64 bits.toBitVec).toNat =
      bits.toNat % 2 ^ 63 / 2 ^ 52 := by
  simp only [UnpackedFloat.unpackExponent, BitVec.toNat_cast, BitVec.extractLsb_toNat]
  change bits.toNat >>> 52 % 2 ^ 11 = _
  rw [Nat.shiftRight_eq_div_pow]
  omega

theorem unpackExponent_eq_iff (bits : UInt64) :
    @UnpackedFloat.unpackExponent Format.binary64 bits.toBitVec = -1#11 ↔
      bits.toNat % 2 ^ 63 / 2 ^ 52 = 2047 := by
  rw [← BitVec.toNat_inj, toNat_unpackExponent]
  rfl

/-- The bits of a number are below those of infinity. -/
theorem isFinite_iff (x : Float) : x.isFinite = true ↔ bitsOf x / 2 ^ 52 ≠ 2047 := by
  have top := unpackExponent_eq_iff x.toBits
  rw [Float.isFinite, Float.Model.isFinite, Float.Model.unpack, UnpackedFloat.unpack]
  change UnpackedFloat.isFinite (if _ = _ then _ else _) = true ↔ _
  split
  · rename_i h
    refine iff_of_false ?_ (not_not.2 (top.1 h))
    split <;> exact Bool.false_ne_true
  · rename_i h
    refine iff_of_true ?_ (fun e => h (top.2 e))
    split
    · split <;> rfl
    · rfl

/-- Sign and bits make the double. -/
theorem eq_of_bitsOf (sign : (ofFloat x).1 = (ofFloat y).1) (bits : bitsOf x = bitsOf y) :
    x = y := by
  have bound := x.toBits.toNat_lt
  have bound' := y.toBits.toNat_lt
  simp only [ofFloat, Nat.pow_eq, decide_eq_decide] at sign
  simp only [bitsOf] at bits
  have : x.toBits = y.toBits := UInt64.toNat_inj.1 (by omega)
  rcases x with ⟨⟨bits, valid⟩⟩
  rcases y with ⟨⟨bits', valid'⟩⟩
  cases this
  rfl

/-- Bits below those of infinity are the bits of a double. -/
theorem exists_bitsOf {bits : Nat} (small : bits / 2 ^ 52 < 2047) : ∃ y, bitsOf y = bits := by
  have same : (UInt64.ofNat bits).toNat % 2 ^ 63 = bits := by
    rw [UInt64.toNat_ofNat']
    omega
  refine ⟨⟨⟨UInt64.ofNat bits, ⟨fun top => ?_⟩⟩⟩, same⟩
  rw [unpackExponent_eq_iff, same] at top
  omega

/-- A number has a magnitude. -/
theorem isFinite_iff_exists :
    x.isFinite = true ↔ ∃ m q narrow, (ofFloat x).2 = .finite m q narrow := by
  rw [isFinite_iff, ofFloat_snd]
  constructor
  · intro low
    rw [if_neg low]
    split <;> exact ⟨_, _, _, rfl⟩
  · rintro ⟨m, q, narrow, finite⟩ top
    rw [if_pos top] at finite
    split at finite <;> cases finite

theorem number_of_isFinite (h : x.isFinite = true) : (ofFloat x).2 ≠ .nan := by
  obtain ⟨m, q, narrow, finite⟩ := isFinite_iff_exists.1 h
  rw [finite]
  exact Magnitude.noConfusion

/-- Every magnitude is so many of the smallest one. -/
theorem value_eq_units (number : (ofFloat x).2 ≠ .nan) :
    (ofFloat x).2.value = units (bitsOf x) * 2 ^ (-1074 : ℤ) := by
  rw [ofFloat_snd] at number ⊢
  unfold units
  split at number
  · rename_i top
    split at number
    · rename_i none
      simp only [top, none, if_true]
      rw [if_neg (by decide), value, Nat.zero_add, ← pow_add, Nat.cast_pow, Nat.cast_ofNat,
        ← zpow_natCast, ← zpow_add₀ two_ne_zero]
      rfl
    · exact absurd rfl number
  · rename_i low
    rw [if_neg low]
    split
    · simp [value]
    · rename_i normal
      rw [value, Nat.cast_mul, Nat.cast_pow, Nat.cast_ofNat (n := 2), mul_assoc,
        ← zpow_natCast (2 : ℚ) (bitsOf x / 2 ^ 52 - 1), ← zpow_add₀ two_ne_zero]
      congr 2
      omega

/-- Magnitudes are in the order of their bits. -/
theorem value_lt_value (number : (ofFloat x).2 ≠ .nan) (number' : (ofFloat y).2 ≠ .nan)
    (less : bitsOf x < bitsOf y) : (ofFloat x).2.value < (ofFloat y).2.value := by
  rw [value_eq_units number, value_eq_units number']
  exact mul_lt_mul_of_pos_right (mod_cast units_strictMono less) (by positivity)

/-- The exponent of a number is the distance to the next larger one. -/
theorem step_of_finite (finite : (ofFloat x).2 = .finite m q narrow) :
    ((2 ^ (bitsOf x / 2 ^ 52 - 1) : Nat) : ℚ) * 2 ^ (-1074 : ℤ) = 2 ^ q := by
  rw [Nat.cast_pow, Nat.cast_ofNat (n := 2), ← zpow_natCast, ← zpow_add₀ two_ne_zero]
  rw [ofFloat_snd] at finite
  split at finite
  · split at finite <;> cases finite
  · split at finite <;> cases finite <;> congr 1 <;> omega

/-- Below a power of two the distance is half as large. -/
theorem step_below_of_finite (finite : (ofFloat x).2 = .finite m q narrow)
    (positive : 0 < bitsOf x) :
    ((2 ^ ((bitsOf x - 1) / 2 ^ 52 - 1) : Nat) : ℚ) * 2 ^ (-1074 : ℤ) =
      2 ^ (if narrow then q - 1 else q) := by
  rw [Nat.cast_pow, Nat.cast_ofNat (n := 2), ← zpow_natCast, ← zpow_add₀ two_ne_zero]
  congr 1
  rw [ofFloat_snd] at finite
  split at finite
  · split at finite <;> cases finite
  · split at finite
    · cases finite
      simp only [Bool.false_eq_true, if_false]
      omega
    · cases finite
      simp only [Bool.and_eq_true, decide_eq_true_eq]
      split <;> omega

theorem bits_mod_two_of_finite (finite : (ofFloat x).2 = .finite m q narrow) :
    x.toBits.toNat % 2 = m % 2 := by
  have same : bitsOf x % 2 = x.toBits.toNat % 2 := by
    rw [bitsOf]
    omega
  rw [ofFloat_snd] at finite
  split at finite
  · split at finite <;> cases finite
  · split at finite <;> cases finite <;> omega

/-- The magnitudes of doubles that differ are a step apart. -/
theorem apart (finite : (ofFloat x).2 = .finite m q narrow) (number : (ofFloat y).2 ≠ .nan) :
    (ofFloat y).2.value = m * 2 ^ q ∨ m * 2 ^ q + 2 ^ q ≤ (ofFloat y).2.value ∨
      (ofFloat y).2.value + 2 ^ (if narrow then q - 1 else q) ≤ (m * 2 ^ q : ℚ) := by
  have unit : (0 : ℚ) ≤ 2 ^ (-1074 : ℤ) := by positivity
  have own : (m * 2 ^ q : ℚ) = units (bitsOf x) * 2 ^ (-1074 : ℤ) := by
    rw [← value_eq_units (by rw [finite]; exact Magnitude.noConfusion), finite, value]
  rw [value_eq_units number, own]
  rcases lt_trichotomy (bitsOf x) (bitsOf y) with less | same | more
  · refine .inr (.inl ?_)
    have step : units (bitsOf x) + 2 ^ (bitsOf x / 2 ^ 52 - 1) ≤ units (bitsOf y) := by
      rw [← units_succ]
      exact units_strictMono.monotone less
    rw [← step_of_finite finite, ← add_mul]
    exact mul_le_mul_of_nonneg_right (mod_cast step) unit
  · exact .inl (by rw [same])
  · refine .inr (.inr ?_)
    have step : units (bitsOf y) + 2 ^ ((bitsOf x - 1) / 2 ^ 52 - 1) ≤ units (bitsOf x) := by
      have next := units_succ (bitsOf x - 1)
      have below := units_strictMono.monotone (Nat.le_sub_one_of_lt more)
      rw [Nat.sub_add_cancel (Nat.one_le_of_lt more)] at next
      omega
    rw [← step_below_of_finite finite (Nat.zero_lt_of_lt more), ← add_mul]
    exact mul_le_mul_of_nonneg_right (mod_cast step) unit

/-! ### Between the midpoints -/

/-- The number lies between the midpoints from the double `m * 2 ^ q` to its neighbours; it may be
a midpoint if the last bit of the double is zero. -/
structure Between (m : Nat) (q : Int) (narrow : Bool) (v : ℚ) : Prop where
  /-- The midpoint below. -/
  low : m * 2 ^ q - 2 ^ (if narrow then q - 1 else q) / 2 ≤ v
  /-- The midpoint above. -/
  high : v ≤ m * 2 ^ q + 2 ^ q / 2
  /-- Midpoints belong to the even neighbour. -/
  inside (odd : m % 2 = 1) :
    m * 2 ^ q - 2 ^ (if narrow then q - 1 else q) / 2 < v ∧ v < m * 2 ^ q + 2 ^ q / 2

variable {v : ℚ}

/-- No double is nearer, and another one is as near only if the double is even. -/
theorem Between.nearest (between : Between m q narrow v)
    (finite : (ofFloat x).2 = .finite m q narrow) (number : (ofFloat y).2 ≠ .nan) :
    |v - m * 2 ^ q| ≤ |v - (ofFloat y).2.value| ∧
      (|v - m * 2 ^ q| = |v - (ofFloat y).2.value| →
        (ofFloat y).2.value = m * 2 ^ q ∨ m % 2 = 0) := by
  have above : (0 : ℚ) < 2 ^ q := by positivity
  have below : (0 : ℚ) < 2 ^ (if narrow then q - 1 else q) := by positivity
  obtain ⟨low, high, inside⟩ := between
  rcases apart finite number with same | up | down
  · rw [same]
    exact ⟨le_rfl, fun _ => .inl rfl⟩
  · have less : (m * 2 ^ q : ℚ) < (ofFloat y).2.value := by linarith
    refine ⟨(abs_sub_le_iff_left less).2 (by linarith), fun tie => .inr ?_⟩
    by_contra odd
    have strict := (inside (Nat.mod_two_ne_zero.1 odd)).2
    exact ((abs_sub_lt_iff_left less).2 (by linarith)).ne tie
  · have less : (ofFloat y).2.value < (m * 2 ^ q : ℚ) := by linarith
    refine ⟨(abs_sub_le_iff_right less).2 (by linarith), fun tie => .inr ?_⟩
    by_contra odd
    have strict := (inside (Nat.mod_two_ne_zero.1 odd)).1
    exact ((abs_sub_lt_iff_right less).2 (by linarith)).ne tie

end Magnitude

/-! ### Rounding -/

namespace Json.Numeral

open Magnitude

variable {n : Numeral} {x y : Float}

/-- **What lies between the midpoints is rounded back.** -/
theorem roundsTo_of_between {m : Nat} {q : Int} {narrow : Bool}
    (sign : (ofFloat x).1 = n.negative) (finite : (ofFloat x).2 = .finite m q narrow)
    (between : Between m q narrow n.value) : n.RoundsTo x where
  finite := isFinite_iff_exists.2 ⟨m, q, narrow, finite⟩
  sign := sign
  nearest y number := by
    rw [finite]
    exact (between.nearest finite number).1
  even y number other tie := by
    rw [finite] at other tie
    rw [bits_mod_two_of_finite finite]
    exact ((between.nearest finite number).2 tie).resolve_left other

/-- Of two neighbours that are equally near only one is even. -/
theorem RoundsTo.not_lt (hx : n.RoundsTo x) (hy : n.RoundsTo y) : ¬bitsOf x < bitsOf y := by
  intro less
  have number := number_of_isFinite hx.finite
  have number' := number_of_isFinite hy.finite
  have apart := value_lt_value number number' less
  have tie := le_antisymm (hx.nearest y number') (hy.nearest x number)
  have even : bitsOf x % 2 = 0 := by
    have := hx.even y number' apart.ne' tie
    rw [bitsOf]
    omega
  have even' : bitsOf y % 2 = 0 := by
    have := hy.even x number apart.ne tie.symm
    rw [bitsOf]
    omega
  -- an odd double lies between the two, and it is nearer
  have finite := (isFinite_iff y).1 hy.finite
  have bound : bitsOf y < 2 ^ 63 := Nat.mod_lt _ (by decide)
  have room : (bitsOf x + 1) / 2 ^ 52 < 2047 := by omega
  obtain ⟨z, bits⟩ := exists_bitsOf room
  have between := number_of_isFinite ((isFinite_iff z).2 (by omega))
  have low := value_lt_value number between (by omega)
  have high := value_lt_value between number' (by omega)
  have near := (abs_sub_le_iff_left low).1 (hx.nearest z between)
  have far := (abs_sub_le_iff_right apart).1 tie.ge
  linarith

/-- **A numeral is rounded to one double at most.** -/
theorem RoundsTo.unique (hx : n.RoundsTo x) (hy : n.RoundsTo y) : x = y :=
  eq_of_bitsOf (hx.sign.trans hy.sign.symm)
    (Nat.le_antisymm (Nat.not_lt.1 (hy.not_lt hx)) (Nat.not_lt.1 (hx.not_lt hy)))

end Json.Numeral

end MatrixCalc
