import MatrixCalc.Decimal.Double
import MatrixCalc.Proofs.Documents.Rounding

/-!
# The shortest decimals

The digits that are written for a double are those of a decimal on the coarsest grid that has a
point between the midpoints to the neighbouring doubles.  Base, grid and trailing zeros change how
a decimal is written down, not the number that it stands for.

* `Decimal.value_ofDyadic` : a dyadic as a decimal.
* `Magnitude.between_shortest` : **the shortest decimal stays between the midpoints**.
-/

namespace MatrixCalc

/-- The number that a decimal stands for. -/
def Decimal.value (d : Decimal) : ℚ := d.coefficient * 10 ^ d.exponent

namespace Decimal

/-- A zero digit at the end moves into the exponent. -/
theorem value_scale (c k : Nat) (e : Int) : value ⟨c, e + k⟩ = value ⟨c * 10 ^ k, e⟩ := by
  rw [value, value, zpow_add₀ (by norm_num), zpow_natCast]
  push_cast
  ring

theorem value_trim (d : Decimal) : d.trim.value = d.value := by
  fun_induction trim d with
  | case1 d zero => simp [value, zero]
  | case2 d nonzero last ih =>
    have whole : d.coefficient / 10 * 10 ^ 1 = d.coefficient := by omega
    have moved := value_scale (d.coefficient / 10) 1 d.exponent
    rw [whole, Nat.cast_one] at moved
    exact ih.trans moved
  | case3 => rfl

/-- Zero has one trimmed form. -/
theorem exponent_trim (d : Decimal) : d.trim.coefficient = 0 → d.trim.exponent = 0 := by
  fun_induction trim d with
  | case1 => exact fun _ => rfl
  | case2 d nonzero last ih => exact ih
  | case3 d nonzero last => exact fun zero => absurd zero nonzero

/-- A dyadic is a decimal; the exponent depends on the power of two alone. -/
theorem value_ofDyadic (m : Nat) (q : Int) : (ofDyadic m q).value = m * 2 ^ q := by
  unfold ofDyadic
  split
  · rename_i h
    obtain ⟨k, rfl⟩ := Int.eq_ofNat_of_zero_le h
    simp [value]
  · rename_i h
    obtain ⟨k, rfl⟩ : ∃ k : Nat, q = -k := ⟨(-q).toNat, by omega⟩
    rw [value, neg_neg, Int.toNat_natCast, Nat.pow_eq]
    push_cast
    rw [zpow_neg, zpow_neg, zpow_natCast, zpow_natCast, show (10 : ℚ) = 2 * 5 by norm_num, mul_pow]
    field_simp

theorem exponent_ofDyadic (m m' : Nat) (q : Int) :
    (ofDyadic m q).exponent = (ofDyadic m' q).exponent := by
  unfold ofDyadic
  split <;> rfl

end Decimal

namespace Magnitude

/-- A point of the grid is found inside the interval only. -/
theorem inside_of_gridPoint? {tie : Tie} {closed : Bool} {low value high unit c : Nat}
    (h : gridPoint? tie closed low value high unit = some c) :
    low ≤ c * unit ∧ c * unit ≤ high ∧ (closed = false → low < c * unit ∧ c * unit < high) := by
  -- the answer is one of the two neighbours, and only those inside are answered
  have inside : ∀ n, (if closed then decide (low ≤ n * unit) && decide (n * unit ≤ high)
      else decide (low < n * unit) && decide (n * unit < high)) = true →
      low ≤ n * unit ∧ n * unit ≤ high ∧ (closed = false → low < n * unit ∧ n * unit < high) := by
    intro n within
    cases closed <;> simp at within ⊢ <;> omega
  simp only [gridPoint?] at h
  split at h
  · rename_i down up
    have even : value / unit % 2 = 0 ∨ value / unit % 2 = 1 := by omega
    split at h
    · exact inside _ (Option.some.inj h ▸ down)
    split at h
    · exact inside _ (Option.some.inj h ▸ up)
    cases tie
    · rcases even with even | odd
      · exact inside _ (Option.some.inj h ▸ even.symm ▸ down)
      · exact inside _ (Option.some.inj h ▸ odd.symm ▸ up)
    · exact inside _ (Option.some.inj h ▸ up)
  · rename_i down _
    exact inside _ (Option.some.inj h ▸ down)
  · rename_i _ up
    exact inside _ (Option.some.inj h ▸ up)
  · cases h

/-- The midpoints in quarters of the distance to the next larger double. -/
theorem between_of_quarters {m : Nat} {q : Int} {narrow : Bool} {v : ℚ}
    (low : ((4 * m - if narrow then 1 else 2 : Nat) : ℚ) * 2 ^ (q - 2) ≤ v)
    (high : v ≤ ((4 * m + 2 : Nat) : ℚ) * 2 ^ (q - 2))
    (inside : m % 2 = 1 → ((4 * m - if narrow then 1 else 2 : Nat) : ℚ) * 2 ^ (q - 2) < v ∧
      v < ((4 * m + 2 : Nat) : ℚ) * 2 ^ (q - 2)) : Between m q narrow v := by
  have quarter : (2 : ℚ) ^ q = 4 * 2 ^ (q - 2) := by
    rw [zpow_sub₀ two_ne_zero]
    norm_num
    ring
  have half : (2 : ℚ) ^ (q - 1) = 2 * 2 ^ (q - 2) := by
    rw [zpow_sub₀ two_ne_zero, zpow_sub₀ two_ne_zero]
    norm_num
    ring
  have unit : (0 : ℚ) < 2 ^ (q - 2) := by positivity
  have below : (m * 2 ^ q : ℚ) - 2 ^ (if narrow then q - 1 else q) / 2 ≤
      ((4 * m - if narrow then 1 else 2 : Nat) : ℚ) * 2 ^ (q - 2) := by
    cases narrow with
    | false =>
      have cut : (4 * m : ℚ) ≤ (4 * m - 2 : Nat) + 2 := mod_cast le_tsub_add
      simp only [Bool.false_eq_true, if_false, quarter]
      nlinarith
    | true =>
      have cut : (4 * m : ℚ) ≤ (4 * m - 1 : Nat) + 1 := mod_cast le_tsub_add
      simp only [if_true, quarter, half]
      nlinarith
  have above : ((4 * m + 2 : Nat) : ℚ) * 2 ^ (q - 2) = m * 2 ^ q + 2 ^ q / 2 := by
    rw [quarter]
    push_cast
    ring
  exact ⟨below.trans low, above ▸ high, fun odd =>
    ⟨below.trans_lt (inside odd).1, above ▸ (inside odd).2⟩⟩

/-- **The shortest decimal stays between the midpoints.** -/
theorem between_shortest (tie : Tie) (m : Nat) (q : Int) (narrow : Bool) :
    Between m q narrow (shortest tie m q narrow).value := by
  -- the three decimals have one exponent, so their coefficients compare as their values do
  let unit : ℚ := 10 ^ (Decimal.ofDyadic (4 * m) (q - 2)).exponent
  have positive : 0 < unit := by positivity
  have scaled (k : Nat) :
      ((Decimal.ofDyadic k (q - 2)).coefficient : ℚ) * unit = k * 2 ^ (q - 2) := by
    rw [← Decimal.value_ofDyadic, Decimal.value, Decimal.exponent_ofDyadic k (4 * m)]
  rw [shortest, Decimal.value_trim]
  dsimp only
  cases found : List.findSome? _ (List.range 17) with
  | none =>
    rw [Option.getD_none, Decimal.value_ofDyadic]
    refine between_of_quarters ?_ ?_ fun odd => ⟨?_, ?_⟩
    · exact mul_le_mul_of_nonneg_right (mod_cast Nat.sub_le _ _) (by positivity)
    · exact mul_le_mul_of_nonneg_right (mod_cast Nat.le_add_right _ _) (by positivity)
    · refine mul_lt_mul_of_pos_right (mod_cast Nat.sub_lt (by omega) ?_) (by positivity)
      split <;> decide
    · exact mul_lt_mul_of_pos_right (mod_cast Nat.lt_add_of_pos_right two_pos) (by positivity)
  | some d =>
    obtain ⟨n, -, candidate⟩ := List.exists_of_findSome?_eq_some found
    obtain ⟨c, point, rfl⟩ := Option.map_eq_some_iff.1 candidate
    obtain ⟨low, high, inside⟩ := inside_of_gridPoint? point
    rw [Option.getD_some, Decimal.value_scale]
    simp only [Nat.pow_eq] at low high inside
    refine between_of_quarters ?_ ?_ ?_
    · rw [← scaled]
      exact mul_le_mul_of_nonneg_right (mod_cast low) positive.le
    · rw [← scaled]
      exact mul_le_mul_of_nonneg_right (mod_cast high) positive.le
    · intro odd
      obtain ⟨low, high⟩ := inside (by simp [odd])
      rw [← scaled, ← scaled]
      exact ⟨mul_lt_mul_of_pos_right (mod_cast low) positive,
        mul_lt_mul_of_pos_right (mod_cast high) positive⟩

end Magnitude

end MatrixCalc
