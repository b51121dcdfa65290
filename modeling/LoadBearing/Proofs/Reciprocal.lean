import LoadBearing.Bridge
import LoadBearing.Proofs.Rounding

/-! # Reciprocals of counts

One divided by a count is at least one half exactly for the counts one and two.  Counts of at most 53
digits are exact doubles, so their reciprocals are off by a tiny part only.  For larger counts not the
value but the exponent of the quotient decides: wherever rounding ends up, even at zero or after a
count that has become infinite, the exponent stays far below that of one half.
-/

namespace LoadBearing.Double

open Float.Model Float.Model.UnpackedFloat

/-- Zero, or a positive number whose exponent is below that of one half. -/
def Tiny : UnpackedFloat → Prop
  | .zero .positive => True
  | .finite .positive _ e _ => e < -53
  | _ => False

theorem not_threshold_le_of_tiny {x : Float} (tiny : Tiny x.toModel.unpack) :
    ¬ Bridge.threshold ≤ x := by
  have half : Bridge.threshold.toModel.unpack = .finite .positive (2 ^ 52) (-53) (by decide) := rfl
  show ¬ decide (Bridge.threshold.toModel ≤ x.toModel) = true
  rw [decide_eq_true_iff]
  show ¬ (Bridge.threshold.toModel.unpack.compare x.toModel.unpack).any (·.isLE) = true
  rw [half]
  cases unpacked : x.toModel.unpack with
  | zero sign => exact Bool.false_ne_true
  | finite sign m e positive =>
    cases sign with
    | positive =>
      rw [unpacked] at tiny
      have above : compare (-53) e = .gt := Int.compare_eq_gt.2 tiny
      show ¬ (some ((compare (-53) e).then (compare (2 ^ 52) m))).any (·.isLE) = true
      rw [above]
      exact Bool.false_ne_true
    | negative => rw [unpacked] at tiny; cases tiny
  | infinity sign => rw [unpacked] at tiny; cases tiny
  | notANumber => rw [unpacked] at tiny; cases tiny

/-! ## Exponents -/

theorem tiny_unpack_packComponents {b : BitVec 11} (small : b.toNat < 1022) (m : BitVec 52) :
    Tiny (UnpackedFloat.unpack Format.binary64 (packComponents Format.binary64 .positive b m)) := by
  have notFull : b ≠ -1#11 := by
    rintro rfl
    simp at small
  delta UnpackedFloat.unpack
  dsimp only
  rw [unpackSign_positive, unpackExponent_packComponents, if_neg notFull]
  by_cases subnormal : b = 0#11
  · have zero : b.toNat = 0 := congrArg BitVec.toNat subnormal
    rw [if_pos subnormal]
    by_cases nothing : unpackMantissa (packComponents Format.binary64 .positive b m) = 0#52
    · rw [dif_pos nothing]
      trivial
    · rw [dif_neg nothing]
      show _ < (-53 : Int)
      simp only [Format.exponentBias]
      omega
  · rw [if_neg subnormal]
    show _ < (-53 : Int)
    simp only [Format.exponentBias]
    omega

theorem Tiny.unpack_pack {f : UnpackedFloat} (tiny : Tiny f) :
    Tiny (Float.Model.pack f).unpack := by
  show Tiny (UnpackedFloat.unpack Format.binary64 (UnpackedFloat.pack Format.binary64 f))
  cases f with
  | zero sign =>
    cases sign with
    | positive => exact tiny_unpack_packComponents (b := 0#11) (by decide) 0#52
    | negative => cases tiny
  | finite sign m e positive =>
    cases sign with
    | positive =>
      have low : e < -53 := tiny
      have small : (e + 1023 + 52).toNat < 1022 := by omega
      rw [pack_finite, if_neg (by omega)]
      split
      · refine tiny_unpack_packComponents ?_ _
        rw [BitVec.toNat_ofNat]
        omega
      · exact tiny_unpack_packComponents (b := 0#11) (by decide) _
    | negative => cases tiny
  | infinity sign => cases tiny
  | notANumber => cases tiny

theorem mantissa_shiftRight_le (em : ExtendedMantissa) (k : Nat) :
    (em >>> k).mantissa ≤ em.mantissa := by
  change (k.repeat ExtendedMantissa.shiftRightOne em).mantissa ≤ em.mantissa
  induction k with
  | zero => rfl
  | succ k ih => exact (Nat.div_le_self _ 2).trans ih

theorem roundedMantissa_le (em : ExtendedMantissa) : em.roundedMantissa ≤ em.mantissa + 1 := by
  obtain ⟨m, round, sticky⟩ := em
  cases round <;> cases sticky <;>
    simp only [ExtendedMantissa.roundedMantissa, ExtendedMantissa.accuracy,
      Accuracy.roundToNearestEven] <;> omega

/-- A mantissa of at most 54 digits is shifted by one place at most. -/
theorem shiftToTargetExponent_le {m : Nat} {e : Int} (a : Accuracy) (narrow : m < 2 ^ 54)
    (bottom : -1074 ≤ e) :
    (shiftToTargetExponent Format.binary64 m e a).1.mantissa ≤ m ∧
      e ≤ (shiftToTargetExponent Format.binary64 m e a).2 ∧
      (shiftToTargetExponent Format.binary64 m e a).2 ≤ e + 1 := by
  have width : m.log2 ≤ 53 := by
    by_cases zero : m = 0
    · simp [zero]
    · have := (Nat.log2_lt zero).2 narrow
      omega
  have target : Format.binary64.targetExponent (totalExponent m e) ≤ e + 1 := by
    rw [targetExponent_binary64, totalExponent]
    omega
  simp only [shiftToTargetExponent, shiftToExponent]
  refine ⟨(mantissa_shiftRight_le _ _).trans (mantissa_ofMantissaAndAccuracy m a).le, ?_, ?_⟩ <;>
    omega

theorem tiny_roundWithAccuracy {m : Nat} {e : Int} (a : Accuracy) (narrow : m ≤ 2 ^ 53)
    (bottom : -1074 ≤ e) (top : e ≤ -60) :
    Tiny (roundWithAccuracy Format.binary64 .positive m e a) := by
  obtain ⟨mantissa, low, high⟩ := shiftToTargetExponent_le a (m := m) (by omega) bottom
  rw [roundWithAccuracy]
  dsimp only
  generalize shiftToTargetExponent Format.binary64 m e a = first at mantissa low high ⊢
  have rounded := roundedMantissa_le first.1
  obtain ⟨-, -, highAgain⟩ := shiftToTargetExponent_le .exact (m := first.1.roundedMantissa)
    (by omega) (bottom.trans low)
  by_cases nothing : (shiftToTargetExponent Format.binary64 first.1.roundedMantissa first.2
      .exact).1.mantissa = 0
  · rw [dif_pos nothing]
    trivial
  · rw [dif_neg nothing]
    show _ < (-53 : Int)
    omega

/-! ## Quotients -/

theorem tiny_one_div {y : Float} {M : Nat} {E : Int} (divisor : Digits y.toModel.unpack M E)
    (low : 0 ≤ E) (top : E ≤ 971) : Tiny ((1.0 : Float) / y).toModel.unpack := by
  have width := divisor.log2
  obtain ⟨⟨_, same⟩, lowDivisor, -⟩ := divisor
  have unit : (1.0 : Float).toModel.unpack = .finite .positive (2 ^ 52) (-52) (by decide) := rfl
  show Tiny (Float.Model.pack (UnpackedFloat.div Format.binary64 _ _)).unpack
  rw [unit, same, div_finite]
  simp only [divCore]
  have target : -1074 ≤ Format.binary64.targetExponent
        (totalExponent (2 ^ 52) (-52) - totalExponent M E) ∧
      -105 - E ≤ Format.binary64.targetExponent
        (totalExponent (2 ^ 52) (-52) - totalExponent M E) ∧
      Format.binary64.targetExponent (totalExponent (2 ^ 52) (-52) - totalExponent M E) ≤ -60 := by
    rw [targetExponent_binary64, totalExponent, totalExponent, width, Nat.log2_two_pow]
    omega
  generalize Format.binary64.targetExponent
    (totalExponent (2 ^ 52) (-52) - totalExponent M E) = t at target
  refine Tiny.unpack_pack (tiny_roundWithAccuracy _ ?_ (by omega) (by omega))
  -- The divisor has at least 53 digits, so the quotient has no more than the dividend gained.
  have gained : (-52 - E - min (-52 - E) t).toNat ≤ 53 := by omega
  rw [Nat.shiftLeft_eq]
  calc 2 ^ 52 * 2 ^ (-52 - E - min (-52 - E) t).toNat / M
      ≤ 2 ^ 52 * 2 ^ 53 / M := by gcongr; exact one_le_two
    _ ≤ 2 ^ 52 * 2 ^ 53 / 2 ^ 52 := by gcongr
    _ = 2 ^ 53 := by norm_num

theorem tiny_one_div_infinity {y : Float} (infinite : y.toModel.unpack = .infinity .positive) :
    Tiny ((1.0 : Float) / y).toModel.unpack := by
  have unit : (1.0 : Float).toModel.unpack = .finite .positive (2 ^ 52) (-52) (by decide) := rfl
  show Tiny (Float.Model.pack (UnpackedFloat.div Format.binary64 _ _)).unpack
  rw [unit, infinite]
  exact Tiny.unpack_pack trivial

theorem tiny_one_div_ofNat {n : Nat} (large : 2 ^ 53 ≤ n) :
    Tiny ((1.0 : Float) / Float.ofNat n).toModel.unpack := by
  have positive : 0 < n := by omega
  have long : 53 ≤ n.log2 := (Nat.le_log2 positive.ne').2 large
  have wide : (n * 2 ^ 53).log2 = 52 + (n.log2 + 1) := by
    rw [log2_mul_pow 53 positive]
    omega
  obtain ⟨m, e, -, digits, low, -⟩ :=
    digits_roundWithAccuracy (e := -53) (stands_exact (n * 2 ^ 53)) wide (by omega)
  have converted := unpack_ofNat_large large
  by_cases top : e ≤ 971
  · have divisor := digits.unpack_pack (by omega) top
    rw [← converted] at divisor
    exact tiny_one_div divisor (by omega) top
  · rw [digits.unpack_pack_overflow (by omega)] at converted
    exact tiny_one_div_infinity converted

theorem reads_threshold : Reads Bridge.threshold (1 / 2) := by
  refine ⟨2 ^ 52, -53, ⟨⟨by decide, rfl⟩, le_rfl, by decide⟩, ?_⟩
  norm_num

/-- Reciprocals of exact counts above two are below one half by far more than rounding can change. -/
theorem not_threshold_le_one_div_small {n : Nat} (many : 2 < n) (small : n < 2 ^ 53) :
    ¬ Bridge.threshold ≤ (1.0 : Float) / Float.ofNat n := by
  have within : 1 ≤ n := by omega
  obtain ⟨v, reads, near⟩ := reads_ratio one_pos within (by omega)
  have quotient : ratio 1 n = (1.0 : Float) / Float.ofNat n := by
    rw [ratio, if_neg (by omega)]
    rfl
  rw [← quotient, reads_threshold.le_iff reads, not_le]
  have third : ((1 : Nat) : ℚ) / n ≤ 1 / 3 := by
    have : (3 : ℚ) ≤ n := by exact_mod_cast many
    push_cast
    gcongr
  have := (abs_le.1 (near small)).2
  linarith

theorem threshold_le_one_div_iff {n : Nat} (positive : 0 < n) :
    Bridge.threshold ≤ (1.0 : Float) / Float.ofNat n ↔ n ≤ 2 := by
  by_cases many : 2 < n
  · refine iff_of_false ?_ (by omega)
    by_cases small : n < 2 ^ 53
    · exact not_threshold_le_one_div_small many small
    · exact not_threshold_le_of_tiny (tiny_one_div_ofNat (by omega))
  · refine iff_of_true ?_ (by omega)
    obtain rfl | rfl : n = 1 ∨ n = 2 := by omega
    · decide +kernel
    · decide +kernel

theorem reads_one_div {n : Nat} (positive : 0 < n) (few : n ≤ 2) :
    Reads ((1.0 : Float) / Float.ofNat n) (1 / n) := by
  have unit : Reads 1.0 1 := by
    refine ⟨2 ^ 52, -52, ⟨⟨by decide, rfl⟩, le_rfl, by decide⟩, ?_⟩
    norm_num
  obtain rfl | rfl : n = 1 ∨ n = 2 := by omega
  · rw [(by decide +kernel : (1.0 : Float) / Float.ofNat 1 = 1.0)]
    simpa using unit
  · rw [(by decide +kernel : (1.0 : Float) / Float.ofNat 2 = Bridge.threshold)]
    simpa using reads_threshold

def IsShare (x : Float) : Prop :=
  ∃ n, 0 < n ∧ n ≤ 2 ∧ x = 1.0 / Float.ofNat n

/-- Shares are compared as numbers in the way their bits are. -/
theorem IsShare.faithful {x y : Float} (left : IsShare x) (right : IsShare y) :
    (x < y ↔ Decimal.orderKey x < Decimal.orderKey y) ∧
      (x ≤ y ↔ Decimal.orderKey x ≤ Decimal.orderKey y) ∧
      (x = y ↔ Decimal.orderKey x = Decimal.orderKey y) := by
  obtain ⟨m, mPositive, mFew, rfl⟩ := left
  obtain ⟨n, nPositive, nFew, rfl⟩ := right
  obtain rfl | rfl : m = 1 ∨ m = 2 := by omega
  all_goals
    obtain rfl | rfl : n = 1 ∨ n = 2 := by omega
    all_goals decide +kernel

end LoadBearing.Double
