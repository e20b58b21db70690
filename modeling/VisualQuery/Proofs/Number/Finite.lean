import Mathlib.Algebra.Order.Field.Power
import Mathlib.Algebra.Order.Field.Rat
import VisualQuery.Number.Binary64
import VisualQuery.Number.Range

/-!
# Finite doubles

A quotient that is rounded keeps at most 53 binary digits, and needs a grid as coarse
as its own magnitude.  So below `2 ^ 1023` it is rounded to a finite double.  This
covers the integers of 64 bits, and the quotients of finite doubles by doubles that
are not below two.
-/

namespace VisualQuery
namespace Binary64

/-! ## Exact quotients -/

/-- The rational number of a numerator and a denominator. -/
def rational (ratio : Nat × Nat) : ℚ := ratio.1 / ratio.2

section

variable {ratio left right : Nat × Nat}

theorem rational_lt_rational_iff (leftPositive : 0 < left.2) (rightPositive : 0 < right.2) :
    rational left < rational right ↔ left.1 * right.2 < right.1 * left.2 := by
  have leftDenominator : (0 : ℚ) < left.2 := by exact_mod_cast leftPositive
  have rightDenominator : (0 : ℚ) < right.2 := by exact_mod_cast rightPositive
  rw [rational, rational, div_lt_div_iff₀ leftDenominator rightDenominator]
  norm_cast

theorem rational_scaleRatio (exponent : Int) (ratio : Nat × Nat) :
    rational (scaleRatio 2 exponent ratio) = rational ratio * 2 ^ exponent := by
  rw [scaleRatio]
  split
  · rename_i up
    obtain ⟨power, rfl⟩ := Int.eq_ofNat_of_zero_le up
    simp [rational, zpow_natCast, div_mul_eq_mul_div]
  · rename_i down
    have opposite : 0 ≤ -exponent := by omega
    obtain ⟨power, isPower⟩ := Int.eq_ofNat_of_zero_le opposite
    obtain rfl : exponent = -power := by omega
    simp [rational, div_eq_mul_inv, mul_assoc, mul_comm]

theorem scaleRatio_snd_pos (exponent : Int) (positive : 0 < ratio.2) :
    0 < (scaleRatio 2 exponent ratio).2 := by
  rw [scaleRatio]
  split
  · exact positive
  · exact Nat.mul_pos positive (Nat.pow_pos two_pos)

/-- The binary logarithms of numerator and denominator give that of the quotient up to
one. -/
theorem rational_bounds (nonzero : ratio.1 ≠ 0) (positive : 0 < ratio.2) :
    (2 : ℚ) ^ ((ratio.1.log2 : Int) - ratio.2.log2 - 1) < rational ratio ∧
      rational ratio < 2 ^ ((ratio.1.log2 : Int) - ratio.2.log2 + 1) := by
  have numeratorLow : (2 : ℚ) ^ ratio.1.log2 ≤ ratio.1 := by
    exact_mod_cast Nat.log2_self_le nonzero
  have numeratorHigh : (ratio.1 : ℚ) < 2 ^ (ratio.1.log2 + 1) := by
    exact_mod_cast Nat.lt_log2_self
  have denominatorLow : (2 : ℚ) ^ ratio.2.log2 ≤ ratio.2 := by
    exact_mod_cast Nat.log2_self_le positive.ne'
  have denominatorHigh : (ratio.2 : ℚ) < 2 ^ (ratio.2.log2 + 1) := by
    exact_mod_cast Nat.lt_log2_self
  have denominatorPositive : (0 : ℚ) < ratio.2 := by exact_mod_cast positive
  constructor
  · rw [rational, lt_div_iff₀ denominatorPositive]
    calc (2 : ℚ) ^ ((ratio.1.log2 : Int) - ratio.2.log2 - 1) * ratio.2
        < 2 ^ ((ratio.1.log2 : Int) - ratio.2.log2 - 1) * 2 ^ (ratio.2.log2 + 1) := by gcongr
      _ = 2 ^ ratio.1.log2 := by
          rw [← zpow_natCast, ← zpow_natCast, ← zpow_add₀ two_ne_zero]
          congr 1
          omega
      _ ≤ ratio.1 := numeratorLow
  · rw [rational, div_lt_iff₀ denominatorPositive]
    calc (ratio.1 : ℚ) < 2 ^ (ratio.1.log2 + 1) := numeratorHigh
      _ = 2 ^ ((ratio.1.log2 : Int) - ratio.2.log2 + 1) * 2 ^ ratio.2.log2 := by
          rw [← zpow_natCast, ← zpow_natCast, ← zpow_add₀ two_ne_zero]
          congr 1
          omega
      _ ≤ 2 ^ ((ratio.1.log2 : Int) - ratio.2.log2 + 1) * ratio.2 := by gcongr

end

/-! ## Rounding -/

section

variable {numerator denominator : Nat}

/-- On its grid a quotient has at most 53 binary digits, and it has all of them unless
the grid is the finest. -/
theorem gridExponent_bounds (nonzero : numerator ≠ 0) (positive : 0 < denominator) :
    rational (numerator, denominator) < 2 ^ (gridExponent numerator denominator + 53) ∧
      (gridExponent numerator denominator = -1074 ∨
        2 ^ (gridExponent numerator denominator + 52) ≤ rational (numerator, denominator)) := by
  obtain ⟨low, high⟩ :
      (2 : ℚ) ^ ((numerator.log2 : Int) - denominator.log2 - 1) <
          rational (numerator, denominator) ∧
        rational (numerator, denominator) < 2 ^ ((numerator.log2 : Int) - denominator.log2 + 1) :=
    @rational_bounds (numerator, denominator) nonzero positive
  have compared :
      numerator * (scaleRatio 2 ((numerator.log2 : Int) - denominator.log2) (1, 1)).2 <
          denominator * (scaleRatio 2 ((numerator.log2 : Int) - denominator.log2) (1, 1)).1 ↔
        rational (numerator, denominator) < 2 ^ ((numerator.log2 : Int) - denominator.log2) := by
    have scaled := rational_scaleRatio ((numerator.log2 : Int) - denominator.log2) (1, 1)
    have one : rational (1, 1) = 1 := by simp [rational]
    rw [one, one_mul] at scaled
    rw [← scaled, rational_lt_rational_iff positive (scaleRatio_snd_pos _ one_pos),
      mul_comm denominator]
  -- What is compared tells the binary logarithm of the quotient, rounded down.
  obtain ⟨floorLog, grid, floor, ceiling⟩ : ∃ floorLog : Int,
      gridExponent numerator denominator = max (-1074) (floorLog - 52) ∧
        (2 : ℚ) ^ floorLog ≤ rational (numerator, denominator) ∧
          rational (numerator, denominator) < 2 ^ (floorLog + 1) := by
    refine ⟨_, rfl, ?_⟩
    split
    · rename_i less
      exact ⟨low.le, by simpa using compared.1 less⟩
    · rename_i notLess
      exact ⟨not_lt.1 (mt compared.2 notLess), high⟩
  constructor
  · refine ceiling.trans_le (zpow_le_zpow_right₀ one_le_two ?_)
    omega
  · by_cases finest : gridExponent numerator denominator = -1074
    · exact Or.inl finest
    · refine Or.inr (le_trans (zpow_le_zpow_right₀ one_le_two ?_) floor)
      omega

/-- Rounding leaves the quotient or adds one. -/
theorem roundQuotient_bounds (numerator denominator : Nat) :
    numerator / denominator ≤ roundQuotient numerator denominator ∧
      roundQuotient numerator denominator ≤ numerator / denominator + 1 := by
  simp only [roundQuotient]
  split
  · omega
  · split <;> omega

/-- On its grid a quotient is rounded to at most 53 binary digits or to `2 ^ 53`, and to
no fewer digits unless the grid is the finest. -/
theorem roundQuotient_scaled (nonzero : numerator ≠ 0) (positive : 0 < denominator) :
    let scaled := scaleRatio 2 (-gridExponent numerator denominator) (numerator, denominator)
    roundQuotient scaled.1 scaled.2 ≤ 2 * fractionBound ∧
      (gridExponent numerator denominator = -1074 ∨
        fractionBound ≤ roundQuotient scaled.1 scaled.2) := by
  intro scaled
  obtain ⟨above, below⟩ := gridExponent_bounds nonzero positive
  obtain ⟨roundedUp, roundedDown⟩ := roundQuotient_bounds scaled.1 scaled.2
  have gridPositive : (0 : ℚ) < 2 ^ gridExponent numerator denominator := by positivity
  have value : (scaled.1 : ℚ) / scaled.2 =
      rational (numerator, denominator) / 2 ^ gridExponent numerator denominator := by
    rw [div_eq_mul_inv (rational _), ← zpow_neg]
    exact rational_scaleRatio _ _
  have scaledPositive : 0 < scaled.2 := scaleRatio_snd_pos _ positive
  have scaledDenominator : (0 : ℚ) < scaled.2 := by exact_mod_cast scaledPositive
  constructor
  · have digits : (scaled.1 : ℚ) / scaled.2 < 2 ^ (53 : Int) := by
      rw [value, div_lt_iff₀ gridPositive, ← zpow_add₀ two_ne_zero, add_comm]
      exact above
    have whole : scaled.1 < 2 ^ 53 * scaled.2 := by
      rw [div_lt_iff₀ scaledDenominator] at digits
      exact_mod_cast digits
    have bound : 2 ^ 53 = 2 * fractionBound := by decide
    have quotient := (Nat.div_lt_iff_lt_mul scaledPositive).2 whole
    omega
  · refine below.imp id fun needed => ?_
    have digits : 2 ^ (52 : Int) ≤ (scaled.1 : ℚ) / scaled.2 := by
      rw [value, le_div_iff₀ gridPositive, ← zpow_add₀ two_ne_zero, add_comm]
      exact needed
    have whole : 2 ^ 52 * scaled.2 ≤ scaled.1 := by
      rw [le_div_iff₀ scaledDenominator] at digits
      exact_mod_cast digits
    have bound : 2 ^ 52 = fractionBound := by decide
    have quotient := (Nat.le_div_iff_mul_le scaledPositive).2 whole
    omega

end

/-! ## Magnitudes -/

theorem magnitude_ofMagnitude
    (negative : Bool)
    {magnitude : Nat}
    (below : magnitude ≤ infinityBits) :
    (ofMagnitude negative magnitude).magnitude = magnitude := by
  have small : magnitude < signWeight := Nat.lt_of_le_of_lt below (by decide)
  cases negative <;>
    simp only [Binary64.magnitude, ofMagnitude, signWeight, UInt64.toNat_ofNat'] at small ⊢ <;>
    simp <;> omega

/-- A number whose magnitude stays below that of the infinities is finite. -/
theorem isFinite_ofMagnitude
    (negative : Bool)
    {magnitude : Nat}
    (below : magnitude < infinityBits) :
    (ofMagnitude negative magnitude).isFinite = true := by
  simpa [isFinite, magnitude_ofMagnitude negative below.le] using below

theorem isFinite_negate {number : Binary64} (finite : number.isFinite = true) :
    number.negate.isFinite = true :=
  isFinite_ofMagnitude _ (of_decide_eq_true finite)

/-- A rounded quotient is a number. -/
theorem isFinite_ofRatio_of_not_isInfinite
    {negative : Bool}
    {numerator denominator : Nat}
    (notInfinite : (ofRatio negative numerator denominator).isInfinite = false) :
    (ofRatio negative numerator denominator).isFinite = true := by
  unfold ofRatio at notInfinite ⊢
  split at notInfinite
  · rename_i zero
    rw [if_pos zero]
    exact isFinite_ofMagnitude _ (by decide)
  · rename_i nonzero
    rw [if_neg nonzero]
    have capped := magnitude_ofMagnitude negative (Nat.min_le_left infinityBits
      (((gridExponent numerator denominator + 1074).toNat * fractionBound +
        roundQuotient
          (scaleRatio 2 (-gridExponent numerator denominator) (numerator, denominator)).1
          (scaleRatio 2 (-gridExponent numerator denominator) (numerator, denominator)).2)))
    dsimp only at notInfinite ⊢
    rw [isInfinite, capped, decide_eq_false_iff_not] at notInfinite
    exact isFinite_ofMagnitude _ (Nat.lt_of_le_of_ne (Nat.min_le_left _ _) notInfinite)

/-- A quotient below `2 ^ 1023` is rounded to a finite double. -/
theorem isFinite_ofRatio
    (negative : Bool)
    {numerator denominator : Nat}
    (positive : 0 < denominator)
    (small : rational (numerator, denominator) < 2 ^ (1023 : Int)) :
    (ofRatio negative numerator denominator).isFinite = true := by
  unfold ofRatio
  split
  · exact isFinite_ofMagnitude _ (by decide)
  · rename_i nonzero
    apply isFinite_ofMagnitude
    refine Nat.lt_of_le_of_lt (Nat.min_le_right _ _) ?_
    have rounded := (roundQuotient_scaled nonzero positive).1
    have grid : gridExponent numerator denominator ≤ 970 := by
      rcases (gridExponent_bounds nonzero positive).2 with finest | needed
      · omega
      · have exponents := (zpow_lt_zpow_iff_right₀ one_lt_two).1 (needed.trans_lt small)
        omega
    have exponent : (gridExponent numerator denominator + 1074).toNat ≤ 2044 := by omega
    have weighted := Nat.mul_le_mul_right fractionBound exponent
    have fractions : 0 < fractionBound := by decide
    simp only [infinityBits]
    omega

/-- A quotient that is not below two is rounded to a double that is not. -/
theorem large_ofRatio
    (negative : Bool)
    {numerator denominator : Nat}
    (positive : 0 < denominator)
    (large : 2 ≤ rational (numerator, denominator)) :
    1024 ≤ (ofRatio negative numerator denominator).exponentField := by
  have nonzero : numerator ≠ 0 := by
    rintro rfl
    rw [rational, Nat.cast_zero, zero_div] at large
    exact two_pos.not_ge large
  have grid : -51 ≤ gridExponent numerator denominator := by
    have above := large.trans_lt (gridExponent_bounds nonzero positive).1
    rw [← zpow_one (2 : ℚ)] at above
    have exponents := (zpow_lt_zpow_iff_right₀ one_lt_two).1 above
    omega
  have rounded := (roundQuotient_scaled nonzero positive).2.resolve_left (by omega)
  have exponent : 1023 ≤ (gridExponent numerator denominator + 1074).toNat := by omega
  have weighted := Nat.mul_le_mul_right fractionBound exponent
  have fractions : 0 < fractionBound := by decide
  rw [ofRatio, if_neg nonzero, exponentField, magnitude_ofMagnitude _ (Nat.min_le_left _ _),
    Nat.le_div_iff_mul_le fractions, Nat.le_min]
  refine ⟨by decide, ?_⟩
  omega

/-! ## Integers -/

/-- The double nearest to an integer of 64 bits is finite. -/
theorem isFinite_ofInt_of_fits
    {value : Int}
    (fits : FitsSigned value ∨ FitsUnsigned value) :
    (ofInt value).isFinite = true := by
  have below : value.natAbs < 2 ^ 64 := by
    rw [fitsSigned_iff, fitsUnsigned_iff] at fits
    omega
  have exactBelow : rational (value.natAbs, 1) < 2 ^ (64 : Int) := by
    rw [rational, Nat.cast_one, div_one]
    exact_mod_cast below
  exact isFinite_ofRatio _ one_pos
    (exactBelow.trans (zpow_lt_zpow_right₀ one_lt_two (by decide)))

/-! ## Quotients of doubles -/

theorem fraction_lt (number : Binary64) : number.fraction < fractionBound :=
  Nat.mod_lt _ (by decide)

theorem rational_ratio (number : Binary64) :
    rational number.ratio = number.significand * 2 ^ number.exponent := by
  rw [ratio, rational_scaleRatio, rational, Nat.cast_one, div_one]

/-- A finite double is below `2 ^ 1024`. -/
theorem rational_ratio_lt {number : Binary64} (finite : number.isFinite = true) :
    rational number.ratio < 2 ^ (1024 : Int) := by
  have fraction := number.fraction_lt
  have field : number.exponentField < 2047 :=
    Nat.div_lt_of_lt_mul ((of_decide_eq_true finite).trans_le (by decide))
  have significand : number.significand < 2 ^ 53 := by
    have bound : 2 ^ 53 = 2 * fractionBound := by decide
    rw [Binary64.significand, bound]
    split <;> omega
  have exponent : number.exponent ≤ 971 := by
    rw [Binary64.exponent]
    split <;> omega
  have exactSignificand : (number.significand : ℚ) < 2 ^ (53 : Int) := by
    exact_mod_cast significand
  rw [rational_ratio]
  calc (number.significand : ℚ) * 2 ^ number.exponent
      < 2 ^ (53 : Int) * 2 ^ number.exponent := by gcongr
    _ = 2 ^ (53 + number.exponent) := (zpow_add₀ two_ne_zero _ _).symm
    _ ≤ 2 ^ (1024 : Int) := zpow_le_zpow_right₀ one_le_two (by omega)

/-- A double with an exponent field from 1024 on is not below two. -/
theorem two_le_rational_ratio {number : Binary64} (large : 1024 ≤ number.exponentField) :
    2 ≤ rational number.ratio := by
  have normal : number.exponentField ≠ 0 := by omega
  have significand : (2 : ℚ) ^ (52 : Int) ≤ number.significand := by
    have bound : fractionBound = 2 ^ 52 := by decide
    rw [Binary64.significand, if_neg normal, bound]
    exact_mod_cast Nat.le_add_right _ _
  have exponent : -51 ≤ number.exponent := by
    rw [Binary64.exponent, if_neg normal]
    omega
  rw [rational_ratio]
  have power : (2 : ℚ) ^ (-51 : Int) ≤ 2 ^ number.exponent :=
    zpow_le_zpow_right₀ one_le_two exponent
  calc (2 : ℚ) = 2 ^ (1 : Int) := (zpow_one 2).symm
    _ = 2 ^ (52 : Int) * 2 ^ (-51 : Int) := zpow_add₀ two_ne_zero 52 (-51)
    _ ≤ number.significand * 2 ^ number.exponent :=
        mul_le_mul significand power (by positivity) (Nat.cast_nonneg _)

/-- A finite double divided by a double that is not below two is finite. -/
theorem isFinite_divide
    {left right : Binary64}
    (finite : left.isFinite = true)
    (large : 1024 ≤ right.exponentField) :
    (left.divide right).isFinite = true := by
  have dividend := rational_ratio_lt finite
  have divisor := two_le_rational_ratio large
  have numerator : 0 < right.ratio.1 := by
    rw [Nat.pos_iff_ne_zero]
    intro zero
    rw [rational, zero, Nat.cast_zero, zero_div] at divisor
    exact two_pos.not_ge divisor
  have denominator : 0 < left.ratio.2 := scaleRatio_snd_pos _ one_pos
  have quotient : rational (left.ratio.1 * right.ratio.2, left.ratio.2 * right.ratio.1) =
      rational left.ratio / rational right.ratio := by
    simp only [rational, Nat.cast_mul, div_div_div_eq]
  refine isFinite_ofRatio _ (Nat.mul_pos denominator numerator) ?_
  rw [quotient, div_lt_iff₀ (two_pos.trans_le divisor)]
  calc rational left.ratio < 2 ^ (1023 : Int) * 2 := by
        rwa [← zpow_add_one₀ two_ne_zero]
    _ ≤ 2 ^ (1023 : Int) * rational right.ratio := by gcongr

end Binary64
end VisualQuery
