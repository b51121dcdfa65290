import LoadBearing.Proofs.Severity

/-! # Percentages of whole numbers

A percentage is a product with a double that is not quite the number of hundredths it is meant to be,
rounded once more and cut to its whole part.  All this is less than one unit in the last place of the
product.  Where the exact product is a whole number, it is a multiple of that unit and found exactly.
Where it is not, the next whole number is at least a hundredth away, and that is far more than a unit.
-/

namespace LoadBearing.Double

open Float.Model Float.Model.UnpackedFloat

/-! ## Products -/

/-- The product of two doubles is again one of 53 digits, and off by half a unit in the last place
    at most. -/
theorem digits_mul {x y : Float} {m M : Nat} {e E : Int} (left : Digits x.toModel.unpack m e)
    (right : Digits y.toModel.unpack M E) (bottom : -1000 ≤ e + E) (top : e + E ≤ 800) :
    ∃ R F, ∃ T : Int, ∃ r : Nat, Digits (x * y).toModel.unpack R F ∧ (R : ℚ) * 2 ^ F = r * 2 ^ T ∧
      |(r : ℚ) - m * 2 ^ e * (M * 2 ^ E) / 2 ^ T| ≤ 1 / 2 ∧
      (2 : ℚ) ^ (52 + T) ≤ m * 2 ^ e * (M * 2 ^ E) ∧
      (m : ℚ) * 2 ^ e * (M * 2 ^ E) < 2 ^ (53 + T) := by
  have shape : (x * y).toModel.unpack = (Float.Model.pack
      (roundWithAccuracy Format.binary64 .positive (m * M) (e + E) .exact)).unpack := by
    obtain ⟨⟨_, same⟩, -, -⟩ := left
    obtain ⟨⟨_, sameRight⟩, -, -⟩ := right
    show (Float.Model.pack (UnpackedFloat.mul Format.binary64 _ _)).unpack = _
    rw [same, sameRight]
    rfl
  have exact : ((m * M : Nat) : ℚ) * 2 ^ (e + E) = m * 2 ^ e * (M * 2 ^ E) := by
    rw [zpow_add₀ two_ne_zero]
    push_cast
    ring
  have low := Nat.mul_le_mul left.low right.low
  have high := Nat.mul_lt_mul'' left.high right.high
  have nonzero : m * M ≠ 0 := by omega
  have wide : 52 ≤ (m * M).log2 := (Nat.le_log2 nonzero).2 (by omega)
  obtain ⟨R, F, T, r, digits, above, lowF, highF, value, near, least, most⟩ :=
    digits_rounded (e := e + E) wide (by omega)
  rw [exact] at near least most
  have bounded : T ≤ e + E + 54 := by
    have := lt_of_two_zpow_lt (least.trans_lt (mul_lt_mul'' left.value_bounds.2
      right.value_bounds.2 (by positivity) (by positivity) |>.trans_eq
      (zpow_add₀ two_ne_zero _ _).symm))
    omega
  rw [shape]
  exact ⟨R, F, T, r, digits.unpack_pack (by omega) (by omega), value, near, least, most⟩

/-! ## Whole parts -/

/-- A double is cut to its whole part. -/
theorem toUInt64_of_digits {x : Float} {m q : Nat} {e : Int} (digits : Digits x.toModel.unpack m e)
    (low : (q : ℚ) ≤ m * 2 ^ e) (high : (m : ℚ) * 2 ^ e < q + 1) (small : q < 2 ^ 52) :
    x.toUInt64.toNat = q := by
  have negative : 52 + e < 52 := by
    refine lt_of_two_zpow_lt (digits.value_bounds.1.trans_lt (high.trans_le ?_))
    exact_mod_cast small
  obtain ⟨k, rfl⟩ : ∃ k : Nat, e = -k := ⟨(-e).toNat, by omega⟩
  obtain ⟨⟨positive, shape⟩, -, -⟩ := digits
  have stands := (stands_exact m).shiftRight k
  have value : (m : ℚ) * 2 ^ (-(k : Int)) = m / 2 ^ k := by
    rw [zpow_neg, zpow_natCast, div_eq_mul_inv]
  rw [value] at low high
  obtain ⟨below, above⟩ := stands.floor
  have whole : (ExtendedMantissa.ofMantissaAndAccuracy m .exact >>> k).mantissa = q := by
    have less : ((ExtendedMantissa.ofMantissaAndAccuracy m .exact >>> k).mantissa : ℚ) < q + 1 :=
      below.trans_lt high
    have more : (q : ℚ) < (ExtendedMantissa.ofMantissaAndAccuracy m .exact >>> k).mantissa + 1 :=
      low.trans_lt above
    norm_cast at less more
    omega
  have amount : ((-(k : Int)) - 0).toNat = 0 := by omega
  have shift : (0 - ((-(k : Int)) - (0 : Nat))).toNat = k := by omega
  show (UInt64.ofNatClamp (x.toModel.unpack.toInt 0 (UInt64.size - 1)).toNat).toNat = q
  rw [shape]
  dsimp only [UnpackedFloat.toInt]
  simp only [roundToInt, decreaseExponent, shiftToExponent, amount, shift, Nat.shiftLeft_zero, whole,
    Sign.apply]
  rw [Int.toNat_natCast, UInt64.ofNatClamp_eq_ofNat _ (small.trans (by decide)), UInt64.toNat_ofNat']
  exact Nat.mod_eq_of_lt (small.trans (by decide))

/-- What is less than a unit away from a number of hundredths has the same whole part, if it is a
    multiple of the unit. -/
theorem whole_of_near {n r : Nat} {T : Int} (fine : T ≤ -7)
    (near : |(r : ℚ) * 2 ^ T - n / 100| < 2 ^ T) :
    ((n / 100 : Nat) : ℚ) ≤ r * 2 ^ T ∧ (r : ℚ) * 2 ^ T < (n / 100 : Nat) + 1 := by
  have unit : (2 : ℚ) ^ T ≤ 1 / 128 := by
    calc (2 : ℚ) ^ T ≤ 2 ^ (-7 : Int) := zpow_le_zpow_right₀ one_le_two fine
      _ = 1 / 128 := by norm_num
  have parts : (n : ℚ) / 100 = (n / 100 : Nat) + (n % 100 : Nat) / 100 := by
    have : (n : ℚ) = 100 * (n / 100 : Nat) + (n % 100 : Nat) := by
      exact_mod_cast (Nat.div_add_mod n 100).symm
    linarith
  have rest : ((n % 100 : Nat) : ℚ) ≤ 99 := by
    exact_mod_cast Nat.le_of_lt_succ (Nat.mod_lt n (by decide))
  obtain ⟨below, above⟩ := abs_lt.1 near
  rw [parts] at below above
  refine ⟨?_, by linarith⟩
  rcases Nat.eq_zero_or_pos (n % 100) with none | some
  · -- A whole number is a multiple of the unit, so no smaller multiple is that near.
    obtain ⟨k, rfl⟩ : ∃ k : Nat, T = -k := ⟨(-T).toNat, by omega⟩
    have scale : (0 : ℚ) < 2 ^ k := by positivity
    rw [none, zpow_neg, zpow_natCast, ← div_eq_mul_inv] at below
    rw [zpow_neg, zpow_natCast, ← div_eq_mul_inv, le_div_iff₀ scale]
    have less : ((n / 100 : Nat) : ℚ) * 2 ^ k < r + 1 := by
      have := mul_lt_mul_of_pos_right below scale
      rw [sub_mul, div_mul_cancel₀ _ scale.ne', neg_mul, inv_mul_cancel₀ scale.ne'] at this
      push_cast at this
      linarith
    norm_cast at less ⊢
    omega
  · have : (1 : ℚ) ≤ (n % 100 : Nat) := by exact_mod_cast some
    linarith

/-! ## Percentages -/

/-- The double next to a number of hundredths: a hundred times its error, in units of the last place,
    is less than half of their number. -/
def IsPercent (x : Float) (percent : Nat) : Prop :=
  ∃ s, Digits x.toModel.unpack s (-53) ∧ 2 * |(100 * s : ℚ) - percent * 2 ^ 53| + 1 ≤ (percent : ℚ)

theorem isPercent_literals : IsPercent 0.50 50 ∧ IsPercent 0.75 75 ∧ IsPercent 0.85 85 ∧
    IsPercent 0.90 90 ∧ IsPercent 0.95 95 := by
  refine ⟨⟨4503599627370496, ⟨⟨by decide, rfl⟩, by decide, by decide⟩, ?_⟩,
    ⟨6755399441055744, ⟨⟨by decide, rfl⟩, by decide, by decide⟩, ?_⟩,
    ⟨7656119366529843, ⟨⟨by decide, rfl⟩, by decide, by decide⟩, ?_⟩,
    ⟨8106479329266893, ⟨⟨by decide, rfl⟩, by decide, by decide⟩, ?_⟩,
    ⟨8556839292003942, ⟨⟨by decide, rfl⟩, by decide, by decide⟩, ?_⟩⟩ <;> norm_num

/-- The error of a double of hundredths does not matter in a product of 53 digits. -/
theorem abs_product_sub_lt {s percent m : Nat} {unit : ℚ} (atMost : percent ≤ 100)
    (error : 2 * |(100 * s : ℚ) - percent * 2 ^ 53| + 1 ≤ (percent : ℚ))
    (most : (s : ℚ) * m / 2 ^ 53 < 2 ^ 53 * unit) :
    |(s : ℚ) * m / 2 ^ 53 - (percent * m : Nat) / 100| < unit / 2 := by
  have hundred : (percent : ℚ) ≤ 100 := by exact_mod_cast atMost
  have split : (s : ℚ) * m / 2 ^ 53 - (percent * m : Nat) / 100
      = (100 * s - percent * 2 ^ 53) * (m / (100 * 2 ^ 53)) := by
    push_cast
    ring
  rw [split, abs_mul, abs_of_nonneg (by positivity : (0 : ℚ) ≤ m / (100 * 2 ^ 53))]
  have below := neg_abs_le ((100 * s : ℚ) - percent * 2 ^ 53)
  generalize |(100 * s : ℚ) - percent * 2 ^ 53| = gap at error below ⊢
  have within : gap * 2 ^ 54 ≤ 100 * s := by linarith
  calc gap * (m / (100 * 2 ^ 53)) = gap * 2 ^ 54 * (m / (100 * 2 ^ 107)) := by ring
    _ ≤ 100 * (s : ℚ) * (m / (100 * 2 ^ 107)) := by gcongr
    _ = (s : ℚ) * m / 2 ^ 53 / 2 ^ 54 := by ring
    _ < 2 ^ 53 * unit / 2 ^ 54 := by gcongr
    _ = unit / 2 := by ring

theorem abs_scaled_sub_le_half {r : Nat} {v unit : ℚ} (positive : 0 < unit)
    (near : |(r : ℚ) - v / unit| ≤ 1 / 2) : |r * unit - v| ≤ unit / 2 := by
  have scaled : r * unit - v = (r - v / unit) * unit := by field_simp
  rw [scaled, abs_mul, abs_of_pos positive]
  linarith [mul_le_mul_of_nonneg_right near positive.le]

/-- The whole part of a percentage is exact for numbers below `2 ^ 32`. -/
theorem toUInt64_share {share : Float} {percent m : Nat} (isPercent : IsPercent share percent)
    (atMost : percent ≤ 100) (small : m < 2 ^ 32) :
    (share * Float.ofNat m).toUInt64.toNat = percent * m / 100 := by
  obtain ⟨s, digits, error⟩ := isPercent
  rcases Nat.eq_zero_or_pos m with rfl | positive
  · obtain ⟨⟨_, shape⟩, -, -⟩ := digits
    have zero : (share * Float.ofNat 0).toModel = Float.Model.pack (.zero .positive) := by
      show Float.Model.pack (UnpackedFloat.mul Format.binary64 _ _) = _
      rw [shape]
      rfl
    show (share * Float.ofNat 0).toModel.toUInt64.toNat = _
    rw [zero, Nat.mul_zero, Nat.zero_div]
    rfl
  · obtain ⟨M, E, whole, low, high, value⟩ := digits_ofNat_small positive (by omega)
    obtain ⟨R, F, T, r, product, same, near, least, most⟩ :=
      digits_mul digits whole (by omega) (by omega)
    have exact : (s : ℚ) * 2 ^ (-53 : Int) * (M * 2 ^ E) = (s : ℚ) * m / 2 ^ 53 := by
      rw [value, zpow_neg]
      norm_cast
      push_cast
      ring
    rw [exact] at near least most
    have fine : 52 + T < 32 := by
      refine lt_of_two_zpow_lt (least.trans_lt ?_)
      have part : (s : ℚ) < 2 ^ 53 := by exact_mod_cast digits.high
      have some : (0 : ℚ) < m := by exact_mod_cast positive
      calc (s : ℚ) * m / 2 ^ 53 < 2 ^ 53 * m / 2 ^ 53 := by gcongr
        _ = (m : ℚ) := by ring
        _ < 2 ^ (32 : Int) := by exact_mod_cast small
    rw [zpow_add₀ two_ne_zero 53 T] at most
    have inexact := abs_product_sub_lt atMost error most
    have rounding := abs_scaled_sub_le_half (zpow_pos two_pos T) near
    have within : |(r : ℚ) * 2 ^ T - (percent * m : Nat) / 100| < 2 ^ T := by
      have both := abs_sub_le ((r : ℚ) * 2 ^ T) ((s : ℚ) * m / 2 ^ 53) ((percent * m : Nat) / 100)
      linarith
    obtain ⟨below, above⟩ := whole_of_near (by omega) within
    rw [← same] at below above
    have bounded : percent * m / 100 ≤ 100 * m / 100 :=
      Nat.div_le_div_right (Nat.mul_le_mul_right _ atMost)
    exact toUInt64_of_digits product below above (by omega)

end LoadBearing.Double
