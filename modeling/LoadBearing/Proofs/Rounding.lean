import Mathlib.Algebra.Order.Field.Power
import Mathlib.Tactic.FieldSimp
import Mathlib.Tactic.Linarith
import Mathlib.Tactic.Positivity
import Mathlib.Tactic.Ring
import LoadBearing.History.Activity

/-! # Shares as doubles

A share is the quotient of two counts, rounded to 53 binary digits.  The residual bits of a mantissa
tell exactly where a number lies between two mantissas (`Stands`), and shifting keeps that, so one
rounding is off by half a unit in the last place at most.  Counts that fit into 64 bits become
doubles of 53 digits, and so do their quotients, which is what makes their order a linear one.

Fractions with denominators below `2 ^ 26` are further apart than rounding can move them, and equal
ones are rounded alike.  Their doubles are therefore in the same order as the fractions.
-/

namespace LoadBearing.Double

open Float.Model Float.Model.UnpackedFloat

/-! ## Residual bits -/

/-- A mantissa with residual bits stands for a number: the mantissa is the whole part, and the bits
    say where the rest lies among zero, one half and what is between. -/
def Stands (em : ExtendedMantissa) (x : ℚ) : Prop :=
  match em.roundBit, em.stickyBit with
  | false, false => x = em.mantissa
  | false, true => (em.mantissa : ℚ) < x ∧ x < em.mantissa + 1 / 2
  | true, false => x = em.mantissa + 1 / 2
  | true, true => (em.mantissa : ℚ) + 1 / 2 < x ∧ x < em.mantissa + 1

section Residual

variable {em : ExtendedMantissa} {x : ℚ}

theorem Stands.floor (stands : Stands em x) : (em.mantissa : ℚ) ≤ x ∧ x < em.mantissa + 1 := by
  obtain ⟨m, round, sticky⟩ := em
  cases round <;> cases sticky <;> simp only [Stands] at stands ⊢ <;> constructor <;> linarith

/-- The last digit becomes the round bit, and whatever the bits told before is now below it. -/
theorem Stands.shiftRightOne (stands : Stands em x) : Stands em.shiftRightOne (x / 2) := by
  obtain ⟨m, round, sticky⟩ := em
  obtain ⟨half, rfl | rfl⟩ := Nat.even_or_odd' m
  · have shifted : (ExtendedMantissa.mk (2 * half) round sticky).shiftRightOne
        = ⟨half, false, round || sticky⟩ := by simp [ExtendedMantissa.shiftRightOne]
    rw [shifted]
    cases round <;> cases sticky <;>
      simp only [Stands, Bool.or_false, Bool.or_true, Nat.cast_mul, Nat.cast_ofNat] at stands ⊢
    · linarith
    · constructor <;> linarith
    · constructor <;> linarith
    · constructor <;> linarith
  · have shifted : (ExtendedMantissa.mk (2 * half + 1) round sticky).shiftRightOne
        = ⟨half, true, round || sticky⟩ := by
      have odd : (2 * half + 1) / 2 = half := by omega
      simp [ExtendedMantissa.shiftRightOne, odd]
    rw [shifted]
    cases round <;> cases sticky <;>
      simp only [Stands, Bool.or_false, Bool.or_true, Nat.cast_mul, Nat.cast_ofNat, Nat.cast_add,
        Nat.cast_one] at stands ⊢
    · linarith
    · constructor <;> linarith
    · constructor <;> linarith
    · constructor <;> linarith

theorem Stands.shiftRight (stands : Stands em x) (k : Nat) : Stands (em >>> k) (x / 2 ^ k) := by
  change Stands (k.repeat ExtendedMantissa.shiftRightOne em) (x / 2 ^ k)
  induction k with
  | zero => simpa [Nat.repeat] using stands
  | succ k ih =>
    rw [Nat.repeat, pow_succ, ← div_div]
    exact ih.shiftRightOne

/-- Rounding a mantissa moves it by half a unit at most. -/
theorem Stands.rounded (stands : Stands em x) : |(em.roundedMantissa : ℚ) - x| ≤ 1 / 2 := by
  obtain ⟨m, round, sticky⟩ := em
  have parity : m % 2 = 0 ∨ m % 2 = 1 := by omega
  rw [abs_le]
  cases round <;> cases sticky <;>
    simp only [Stands, ExtendedMantissa.roundedMantissa, ExtendedMantissa.accuracy,
      Accuracy.roundToNearestEven] at stands ⊢
  · constructor <;> linarith
  · constructor <;> linarith
  · -- A tie goes to the even neighbour.
    rcases parity with even | odd
    · rw [even, Nat.add_zero]
      constructor <;> linarith
    · rw [odd, Nat.cast_add, Nat.cast_one]
      constructor <;> linarith
  · rw [Nat.cast_add, Nat.cast_one]
    constructor <;> linarith

/-- The number that a mantissa with residual bits stands for determines the mantissa and the bits. -/
theorem Stands.unique {other : ExtendedMantissa} (stands : Stands em x)
    (standsToo : Stands other x) : em = other := by
  have floor : em.mantissa = other.mantissa := by
    obtain ⟨below, above⟩ := stands.floor
    obtain ⟨belowOther, aboveOther⟩ := standsToo.floor
    have less : (em.mantissa : ℚ) < other.mantissa + 1 := by linarith
    have more : (other.mantissa : ℚ) < em.mantissa + 1 := by linarith
    norm_cast at less more
    omega
  obtain ⟨m, round, sticky⟩ := em
  obtain ⟨M, roundOther, stickyOther⟩ := other
  obtain rfl : m = M := floor
  -- The four cases of the bits are disjoint.
  cases round <;> cases sticky <;> cases roundOther <;> cases stickyOther <;>
    simp only [Stands] at stands standsToo <;> first | rfl | (exfalso; linarith)

theorem stands_exact (m : Nat) : Stands (.ofMantissaAndAccuracy m .exact) m := rfl

theorem stands_rest (q : Nat) {rest b : Nat} (below : rest < b) :
    Stands (.ofMantissaAndAccuracy q (accuracyOfFraction rest b)) (q + rest / b : ℚ) := by
  have scale : (0 : ℚ) < b := by exact_mod_cast Nat.zero_lt_of_lt below
  have rest_lt : (rest : ℚ) / b < 1 := by
    rw [div_lt_one scale]
    exact_mod_cast below
  rw [accuracyOfFraction]
  by_cases none : rest = 0
  · simp [none, ExtendedMantissa.ofMantissaAndAccuracy, Stands]
  · have some : (0 : ℚ) < rest / b := div_pos (by exact_mod_cast Nat.pos_of_ne_zero none) scale
    rw [if_neg none]
    rcases lt_trichotomy (2 * rest) b with less | same | more
    · have half : (rest : ℚ) / b < 1 / 2 := by
        rw [div_lt_div_iff₀ scale two_pos]
        exact_mod_cast (by omega : rest * 2 < 1 * b)
      rw [Nat.compare_eq_lt.2 less]
      show (q : ℚ) < q + rest / b ∧ (q : ℚ) + rest / b < q + 1 / 2
      constructor <;> linarith
    · have half : (rest : ℚ) / b = 1 / 2 := by
        rw [div_eq_div_iff scale.ne' two_ne_zero]
        exact_mod_cast (by omega : rest * 2 = 1 * b)
      rw [Nat.compare_eq_eq.2 same, half]
      rfl
    · have half : 1 / 2 < (rest : ℚ) / b := by
        rw [div_lt_div_iff₀ two_pos scale]
        exact_mod_cast (by omega : 1 * b < rest * 2)
      rw [Nat.compare_eq_gt.2 more]
      show (q : ℚ) + 1 / 2 < q + rest / b ∧ (q : ℚ) + rest / b < q + 1
      constructor <;> linarith

theorem stands_fraction (a : Nat) {b : Nat} (positive : 0 < b) :
    Stands (.ofMantissaAndAccuracy (a / b) (accuracyOfFraction (a % b) b)) (a / b : ℚ) := by
  have scale : (b : ℚ) ≠ 0 := by exact_mod_cast positive.ne'
  have parts : (a : ℚ) / b = (a / b : Nat) + (a % b : Nat) / (b : ℚ) := by
    rw [eq_comm, ← mul_right_inj' scale, mul_add, mul_div_cancel₀ _ scale, mul_div_cancel₀ _ scale]
    exact_mod_cast Nat.div_add_mod a b
  rw [parts]
  exact stands_rest _ (Nat.mod_lt a positive)

end Residual

/-! ## Digits -/

/-- A positive double in its usual form, with 53 binary digits. -/
structure Digits (f : UnpackedFloat) (m : Nat) (e : Int) : Prop where
  finite : ∃ positive : 0 < m, f = .finite .positive m e positive
  low : 2 ^ 52 ≤ m
  high : m < 2 ^ 53

theorem Digits.log2 {f : UnpackedFloat} {m : Nat} {e : Int} (digits : Digits f m e) :
    m.log2 = 52 :=
  (Nat.log2_eq_iff (by have := digits.low; omega)).2 ⟨digits.low, digits.high⟩

theorem targetExponent_binary64 (total : Int) :
    Format.binary64.targetExponent total = max (total - 53) (-1074) := rfl

theorem targetExponent_eq {total : Int} (bottom : -1021 ≤ total) :
    Format.binary64.targetExponent total = total - 53 := by
  rw [targetExponent_binary64]
  omega

theorem shiftToTargetExponent_eq {m k : Nat} {e : Int} (a : Accuracy) (width : m.log2 = 52 + k)
    (bottom : -1074 ≤ e + k) :
    shiftToTargetExponent Format.binary64 m e a
      = (ExtendedMantissa.ofMantissaAndAccuracy m a >>> k, e + k) := by
  have target : Format.binary64.targetExponent (totalExponent m e) = e + k := by
    rw [totalExponent, width, targetExponent_eq (by push_cast; omega)]
    push_cast
    ring
  have amount : (e + k - e).toNat = k := by omega
  rw [shiftToTargetExponent, target, shiftToExponent, amount]

theorem mantissa_ofMantissaAndAccuracy (m : Nat) (a : Accuracy) :
    (ExtendedMantissa.ofMantissaAndAccuracy m a).mantissa = m := by
  cases a with
  | exact => rfl
  | inexact o => cases o <;> rfl

theorem Stands.shifted_bounds {m k : Nat} {a : Accuracy} {x : ℚ}
    (stands : Stands (.ofMantissaAndAccuracy m a) x) (width : m.log2 = 52 + k) :
    2 ^ 52 ≤ x / 2 ^ k ∧ x / 2 ^ k < 2 ^ 53 := by
  have nonzero : m ≠ 0 := by
    rintro rfl
    simp at width
    omega
  obtain ⟨low, high⟩ := (Nat.log2_eq_iff nonzero).1 width
  obtain ⟨below, above⟩ := stands.floor
  rw [mantissa_ofMantissaAndAccuracy] at below above
  have lowCast : (2 : ℚ) ^ 52 * 2 ^ k ≤ m := by
    rw [← pow_add]
    exact_mod_cast low
  have highCast : (m : ℚ) + 1 ≤ 2 ^ 53 * 2 ^ k := by
    rw [← pow_add, (by ring : 53 + k = 52 + k + 1)]
    exact_mod_cast high
  have scale : (0 : ℚ) < 2 ^ k := by positivity
  rw [le_div_iff₀ scale, div_lt_iff₀ scale]
  constructor <;> linarith

theorem digits_of_shifts {m M : Nat} {e T E : Int} {a : Accuracy} {em : ExtendedMantissa}
    {round sticky : Bool} (first : shiftToTargetExponent Format.binary64 m e a = (em, T))
    (second : shiftToTargetExponent Format.binary64 em.roundedMantissa T .exact
      = (⟨M, round, sticky⟩, E)) (low : 2 ^ 52 ≤ M) (high : M < 2 ^ 53) :
    Digits (roundWithAccuracy Format.binary64 .positive m e a) M E := by
  have positive : 0 < M := by omega
  refine ⟨⟨positive, ?_⟩, low, high⟩
  rw [roundWithAccuracy, first]
  dsimp only
  rw [second]
  exact dif_neg positive.ne'

/-- Rounding gives 53 digits: the shifted mantissa, or half of it where it has become too long. -/
theorem digits_roundWithAccuracy {m k : Nat} {e : Int} {a : Accuracy} {x : ℚ}
    (stands : Stands (.ofMantissaAndAccuracy m a) x) (width : m.log2 = 52 + k)
    (bottom : -1074 ≤ e + k) :
    ∃ M E, ∃ r : Nat, Digits (roundWithAccuracy Format.binary64 .positive m e a) M E ∧
      e + k ≤ E ∧ E ≤ e + k + 1 ∧ (M : ℚ) * 2 ^ E = r * 2 ^ (e + k) ∧
      |(r : ℚ) - x / 2 ^ k| ≤ 1 / 2 := by
  have error := (stands.shiftRight k).rounded
  obtain ⟨low, high⟩ := stands.shifted_bounds width
  have first := shiftToTargetExponent_eq a width bottom
  generalize ExtendedMantissa.ofMantissaAndAccuracy m a >>> k = em at error first
  obtain ⟨below, above⟩ := abs_le.1 error
  have lowRounded : 2 ^ 52 ≤ em.roundedMantissa := by
    have : (2 ^ 52 : ℚ) < em.roundedMantissa + 1 := by linarith
    exact Nat.lt_succ_iff.1 (by exact_mod_cast this)
  have highRounded : em.roundedMantissa ≤ 2 ^ 53 := by
    have : (em.roundedMantissa : ℚ) < 2 ^ 53 + 1 := by linarith
    exact Nat.lt_succ_iff.1 (by exact_mod_cast this)
  rcases highRounded.lt_or_eq with fits | full
  · have narrow : em.roundedMantissa.log2 = 52 + 0 :=
      (Nat.log2_eq_iff (by omega)).2 ⟨lowRounded, fits⟩
    have second := shiftToTargetExponent_eq .exact narrow (by simpa using bottom)
    exact ⟨_, _, _, digits_of_shifts first second lowRounded fits, by simp, by simp, by simp, error⟩
  · have wide : em.roundedMantissa.log2 = 52 + 1 := by rw [full, Nat.log2_two_pow]
    have second := shiftToTargetExponent_eq (e := e + k) .exact wide (by push_cast; omega)
    have halved : ExtendedMantissa.ofMantissaAndAccuracy (2 ^ 53) .exact >>> 1
        = ⟨2 ^ 52, false, false⟩ := rfl
    have value : ((2 ^ 52 : Nat) : ℚ) * 2 ^ (e + k + 1) = em.roundedMantissa * 2 ^ (e + k) := by
      rw [full, zpow_add_one₀ two_ne_zero]
      push_cast
      ring
    rw [full, halved, ← full] at second
    exact ⟨_, _, _, digits_of_shifts first second le_rfl (by decide), by simp, by simp, value, error⟩

/-- The size of a number of 53 digits determines the unit of the last one. -/
theorem unit_le_of_eq {p q : ℚ} {a b : Int} (low : 2 ^ 52 ≤ p) (high : q < 2 ^ 53)
    (same : p * 2 ^ a = q * 2 ^ b) : a ≤ b := by
  by_contra above
  have less : q * 2 ^ b < p * 2 ^ a := by
    calc q * 2 ^ b < 2 ^ 53 * 2 ^ b := by gcongr
      _ = 2 ^ 52 * 2 ^ (b + 1) := by rw [zpow_add_one₀ two_ne_zero]; ring
      _ ≤ p * 2 ^ a := by gcongr; exacts [one_le_two, by omega]
  exact less.ne' same

/-- Rounding depends on nothing but the number that is rounded. -/
theorem roundWithAccuracy_congr {m k M K : Nat} {e E : Int} {a b : Accuracy} {x y : ℚ}
    (stands : Stands (.ofMantissaAndAccuracy m a) x) (width : m.log2 = 52 + k)
    (bottom : -1074 ≤ e + k) (standsToo : Stands (.ofMantissaAndAccuracy M b) y)
    (widthOther : M.log2 = 52 + K) (bottomOther : -1074 ≤ E + K)
    (same : x * 2 ^ e = y * 2 ^ E) :
    roundWithAccuracy Format.binary64 .positive m e a
      = roundWithAccuracy Format.binary64 .positive M E b := by
  obtain ⟨low, high⟩ := stands.shifted_bounds width
  obtain ⟨lowOther, highOther⟩ := standsToo.shifted_bounds widthOther
  have scaled : x / 2 ^ k * 2 ^ (e + k) = y / 2 ^ K * 2 ^ (E + K) := by
    rw [zpow_add₀ two_ne_zero, zpow_add₀ two_ne_zero, zpow_natCast, zpow_natCast]
    field_simp
    linarith
  have unit : e + k = E + K :=
    le_antisymm (unit_le_of_eq low highOther scaled) (unit_le_of_eq lowOther high scaled.symm)
  rw [unit, mul_left_inj' (by positivity)] at scaled
  have shifted := stands.shiftRight k
  rw [scaled] at shifted
  have first := shiftToTargetExponent_eq a width bottom
  have second := shiftToTargetExponent_eq b widthOther bottomOther
  rw [shifted.unique (standsToo.shiftRight K), unit] at first
  rw [roundWithAccuracy, roundWithAccuracy, first, second]

theorem toNat_implicit (v : BitVec 52) : (1#1 ++ v).toNat = 2 ^ 52 + v.toNat := by
  rw [BitVec.toNat_append, ← Nat.shiftLeft_add_eq_or_of_lt v.isLt]
  rfl

theorem toNat_implicit_append {m : Nat} (low : 2 ^ 52 ≤ m) (high : m < 2 ^ 53) :
    (1#1 ++ BitVec.ofNat 52 m).toNat = m := by
  rw [toNat_implicit, BitVec.toNat_ofNat]
  omega

theorem pack_finite {s : Sign} {m : Nat} {e : Int} (positive : 0 < m) :
    UnpackedFloat.pack Format.binary64 (.finite s m e positive)
      = if 2 ^ 11 ≤ (e + 1023 + 52).toNat + 1 then packedInfinity Format.binary64 s
        else if m.log2 + 1 = 53 then
          packComponents Format.binary64 s (BitVec.ofNat 11 (e + 1023 + 52).toNat) (BitVec.ofNat 52 m)
        else packComponents Format.binary64 s 0#11 (BitVec.ofNat 52 m) := rfl

theorem finite_congr {s t : Sign} {m n : Nat} {e f : Int} {positive : 0 < m} {positiveToo : 0 < n}
    (signs : s = t) (mantissas : m = n) (exponents : e = f) :
    UnpackedFloat.finite s m e positive = .finite t n f positiveToo := by
  subst signs mantissas exponents
  rfl

theorem pack_eq {m b : Nat} {e : Int} (positive : 0 < m) (width : m.log2 = 52)
    (biased : e + 1075 = b) (top : b < 2047) :
    UnpackedFloat.pack Format.binary64 (.finite .positive m e positive)
      = packComponents Format.binary64 .positive (BitVec.ofNat 11 b) (BitVec.ofNat 52 m) := by
  have exponent : (e + 1023 + 52).toNat = b := by omega
  rw [pack_finite, exponent, if_neg (by omega), if_pos (by omega)]

theorem unpackSign_positive {spec : Format} (exponent : BitVec spec.exponentBits)
    (mantissa : BitVec spec.mantissaBitsWithoutImplicit) :
    Sign.ofBitVec (unpackSign (packComponents spec .positive exponent mantissa)) = .positive := by
  have cleared : unpackSign (packComponents spec .positive exponent mantissa)
      = Sign.positive.toBitVec := by
    ext i bound
    obtain rfl : i = 0 := by omega
    delta unpackSign
    simp +arith [BitVec.extractLsb, packComponents, BitVec.getElem_append]
  rw [cleared]
  rfl

/-- A double of 53 digits comes back from its bits, unless its exponent is out of range. -/
theorem Digits.unpack_pack {f : UnpackedFloat} {m : Nat} {e : Int} (digits : Digits f m e)
    (bottom : -1074 ≤ e) (top : e ≤ 971) : Digits (Float.Model.pack f).unpack m e := by
  have width := digits.log2
  obtain ⟨⟨positive, rfl⟩, low, high⟩ := digits
  refine ⟨⟨positive, ?_⟩, low, high⟩
  obtain ⟨b, biased⟩ : ∃ b : Nat, e + 1075 = b := ⟨(e + 1075).toNat, by omega⟩
  have exponent : (BitVec.ofNat 11 b).toNat = b := by
    rw [BitVec.toNat_ofNat, Nat.mod_eq_of_lt (by omega)]
  -- All ones would be an infinity and all zeros a number of fewer digits.
  have notFull : BitVec.ofNat 11 b ≠ -1#11 := by
    intro same
    have full : b = 2047 := exponent ▸ congrArg BitVec.toNat same
    omega
  have notZero : BitVec.ofNat 11 b ≠ 0#11 := by
    intro same
    have zero : b = 0 := exponent ▸ congrArg BitVec.toNat same
    omega
  show UnpackedFloat.unpack Format.binary64 (UnpackedFloat.pack Format.binary64 _) = _
  rw [pack_eq positive width biased (by omega)]
  delta UnpackedFloat.unpack
  dsimp only
  rw [unpackExponent_packComponents, if_neg notFull, if_neg notZero]
  refine finite_congr (unpackSign_positive _ _) ?_ ?_
  · rw [unpackMantissa_packComponents]
    exact toNat_implicit_append low high
  · rw [exponent]
    simp only [Format.exponentBias]
    omega

theorem Digits.unpack_pack_overflow {f : UnpackedFloat} {m : Nat} {e : Int} (digits : Digits f m e)
    (beyond : 971 < e) : (Float.Model.pack f).unpack = .infinity .positive := by
  obtain ⟨⟨positive, rfl⟩, -, -⟩ := digits
  show UnpackedFloat.unpack Format.binary64 (UnpackedFloat.pack Format.binary64 _) = _
  rw [pack_finite, if_pos (by omega)]
  rfl

/-! ## Order -/

theorem value_lt_of_exponent_lt {m M : Nat} {e E : Int} (high : m < 2 ^ 53) (low : 2 ^ 52 ≤ M)
    (less : e < E) : (m : ℚ) * 2 ^ e < M * 2 ^ E := by
  have highCast : (m : ℚ) < 2 ^ 53 := by exact_mod_cast high
  have lowCast : (2 : ℚ) ^ 52 ≤ M := by exact_mod_cast low
  calc (m : ℚ) * 2 ^ e < 2 ^ 53 * 2 ^ e := by gcongr
    _ = 2 ^ 52 * 2 ^ (e + 1) := by rw [zpow_add_one₀ two_ne_zero]; ring
    _ ≤ M * 2 ^ E := by gcongr; exacts [one_le_two, less]

/-- Numbers of 53 digits in the order of their values. -/
theorem place_le_iff {m M : Nat} {e E : Int} (low : 2 ^ 52 ≤ m) (high : m < 2 ^ 53)
    (lowRight : 2 ^ 52 ≤ M) (highRight : M < 2 ^ 53) :
    (e + 1074) * 2 ^ 52 + m ≤ (E + 1074) * 2 ^ 52 + M ↔ (m : ℚ) * 2 ^ e ≤ M * 2 ^ E := by
  rcases lt_trichotomy e E with below | rfl | above
  · have values := value_lt_of_exponent_lt high lowRight below
    exact ⟨fun _ => values.le, fun _ => by omega⟩
  · have scale : (0 : ℚ) < 2 ^ e := by positivity
    rw [mul_le_mul_iff_of_pos_right scale, Nat.cast_le]
    omega
  · have values := value_lt_of_exponent_lt highRight low above
    exact ⟨fun places => by omega, fun order => absurd values order.not_gt⟩

/-- Doubles are compared by exponent and then by mantissa, which is to compare their values. -/
theorem Digits.compare_eq {f g : UnpackedFloat} {m M : Nat} {e E : Int} (left : Digits f m e)
    (right : Digits g M E) :
    f.compare g = some (compare ((m : ℚ) * 2 ^ e) (M * 2 ^ E)) := by
  obtain ⟨⟨_, rfl⟩, low, high⟩ := left
  obtain ⟨⟨_, rfl⟩, lowRight, highRight⟩ := right
  show some ((compare e E).then (compare m M)) = _
  rcases lt_trichotomy e E with less | rfl | more
  · have values := value_lt_of_exponent_lt high lowRight less
    rw [compare_lt_iff_lt.2 less, compare_lt_iff_lt.2 values]
    rfl
  · have scale : (0 : ℚ) < 2 ^ e := by positivity
    rw [compare_eq_iff_eq.2 rfl, Ordering.eq_then]
    rcases lt_trichotomy m M with less | rfl | more
    · have values : (m : ℚ) * 2 ^ e < M * 2 ^ e := by gcongr
      rw [compare_lt_iff_lt.2 less, compare_lt_iff_lt.2 values]
    · rw [compare_eq_iff_eq.2 rfl, compare_eq_iff_eq.2 rfl]
    · have values : (M : ℚ) * 2 ^ e < m * 2 ^ e := by gcongr
      rw [compare_gt_iff_gt.2 more, compare_gt_iff_gt.2 values]
  · have values := value_lt_of_exponent_lt highRight low more
    rw [compare_gt_iff_gt.2 more, compare_gt_iff_gt.2 values]
    rfl

/-- A double is positive, has 53 digits and is worth this number. -/
def Reads (x : Float) (v : ℚ) : Prop :=
  ∃ m e, Digits x.toModel.unpack m e ∧ (m : ℚ) * 2 ^ e = v

def value (x : Float) : ℚ :=
  match x.toModel.unpack with
  | .finite sign m e _ => sign.apply m * 2 ^ e
  | _ => 0

theorem Reads.value_eq {x : Float} {v : ℚ} (reads : Reads x v) : value x = v := by
  obtain ⟨m, e, ⟨⟨positive, same⟩, -, -⟩, rfl⟩ := reads
  rw [value, same]
  simp [Sign.apply]

theorem compare_of_reads {x y : Float} {v w : ℚ} (left : Reads x v) (right : Reads y w) :
    x.toModel.unpack.compare y.toModel.unpack = some (compare v w) := by
  obtain ⟨m, e, digits, rfl⟩ := left
  obtain ⟨M, E, others, rfl⟩ := right
  exact digits.compare_eq others

theorem lt_iff_compare {x y : Float} :
    x < y ↔ x.toModel.unpack.compare y.toModel.unpack = some .lt := by
  show decide (x.toModel < y.toModel) = true ↔ _
  rw [decide_eq_true_iff]
  show (x.toModel.unpack.compare y.toModel.unpack == some .lt) = true ↔ _
  rw [beq_iff_eq]

theorem Reads.lt_iff {x y : Float} {v w : ℚ} (left : Reads x v) (right : Reads y w) :
    x < y ↔ v < w := by
  rw [lt_iff_compare, compare_of_reads left right, Option.some.injEq, compare_lt_iff_lt]

theorem Reads.le_iff {x y : Float} {v w : ℚ} (left : Reads x v) (right : Reads y w) :
    x ≤ y ↔ v ≤ w := by
  show decide (x.toModel ≤ y.toModel) = true ↔ _
  rw [decide_eq_true_iff]
  show (x.toModel.unpack.compare y.toModel.unpack).any (·.isLE) = true ↔ _
  rw [compare_of_reads left right, Option.any_some, Ordering.isLE_iff_ne_gt]
  exact compare_le_iff_le

theorem Reads.zero_lt {x : Float} {v : ℚ} (reads : Reads x v) : 0 < x := by
  obtain ⟨m, e, ⟨⟨positive, form⟩, -, -⟩, -⟩ := reads
  have zero : (0 : Float).toModel.unpack = .zero .positive := rfl
  rw [lt_iff_compare, zero, form]
  rfl

/-! ## Counts -/

theorem eq_of_near {r n : Nat} (near : |(r : ℚ) - n| ≤ 1 / 2) : r = n := by
  obtain ⟨below, above⟩ := abs_le.1 near
  have notLess : ¬ r < n := fun less => by
    have : (r : ℚ) + 1 ≤ n := by exact_mod_cast less
    linarith
  have notMore : ¬ n < r := fun more => by
    have : (n : ℚ) + 1 ≤ r := by exact_mod_cast more
    linarith
  omega

theorem log2_mul_pow {n : Nat} (k : Nat) (positive : 0 < n) : (n * 2 ^ k).log2 = n.log2 + k := by
  have nonzero : n * 2 ^ k ≠ 0 := by positivity
  obtain ⟨low, high⟩ := (Nat.log2_eq_iff positive.ne').1 rfl
  rw [Nat.log2_eq_iff nonzero]
  constructor
  · rw [pow_add]
    exact Nat.mul_le_mul_right _ low
  · rw [(by ring : n.log2 + k + 1 = n.log2 + 1 + k), pow_add]
    exact Nat.mul_lt_mul_of_pos_right high (by positivity)

/-- A number of at most 53 digits followed by zeros loses nothing. -/
theorem digits_exact {m k : Nat} {e : Int} (width : m.log2 = 52) (bottom : -1074 ≤ e + k) :
    ∃ M E, Digits (roundWithAccuracy Format.binary64 .positive (m * 2 ^ k) e .exact) M E ∧
      e + k ≤ E ∧ E ≤ e + k + 1 ∧ (M : ℚ) * 2 ^ E = m * 2 ^ (e + k) := by
  have positive : 0 < m := Nat.pos_of_ne_zero (by rintro rfl; simp at width)
  have wide : (m * 2 ^ k).log2 = 52 + k := by rw [log2_mul_pow k positive, width]
  obtain ⟨M, E, r, digits, low, high, value, near⟩ :=
    digits_roundWithAccuracy (stands_exact (m * 2 ^ k)) wide bottom
  have shifted : ((m * 2 ^ k : Nat) : ℚ) / 2 ^ k = m := by
    push_cast
    exact mul_div_cancel_right₀ _ (by positivity)
  rw [shifted] at near
  rw [eq_of_near near] at value
  exact ⟨M, E, digits, low, high, value⟩

/-- A product with a power of two, which has one digit followed by zeros, is exact. -/
theorem digits_of_product {x product : Float} {m : Nat} {e q : Int}
    (digits : Digits x.toModel.unpack m e) (bottom : -1074 ≤ e + q) (top : e + q ≤ 970)
    (shape : product.toModel.unpack = (Float.Model.pack
      (roundWithAccuracy Format.binary64 .positive (m * 2 ^ 52) (e + (q - 52)) .exact)).unpack) :
    ∃ M E, Digits product.toModel.unpack M E ∧ e + q ≤ E ∧ E ≤ e + q + 1 ∧
      (M : ℚ) * 2 ^ E = m * 2 ^ (e + q) := by
  have back : e + (q - 52) + (52 : Nat) = e + q := by push_cast; omega
  obtain ⟨M, E, result, low, high, value⟩ :=
    digits_exact (k := 52) (e := e + (q - 52)) digits.log2 (by omega)
  rw [back] at low high value
  rw [shape]
  exact ⟨M, E, result.unpack_pack (by omega) (by omega), low, high, value⟩

/-- One, as the conversion of numbers below `2 ^ 53` has it. -/
def one : Float :=
  Float.ofBits 0x3FF0000000000000

theorem digits_mul_one {x : Float} {m : Nat} {e : Int} (digits : Digits x.toModel.unpack m e)
    (bottom : -1074 ≤ e) (top : e ≤ 970) :
    ∃ M E, Digits (x * one).toModel.unpack M E ∧ e ≤ E ∧ E ≤ e + 1 ∧
      (M : ℚ) * 2 ^ E = m * 2 ^ e := by
  have unit : one.toModel.unpack = .finite .positive (2 ^ 52) (0 - 52) (by decide) := rfl
  have shape : (x * one).toModel.unpack = (Float.Model.pack
      (roundWithAccuracy Format.binary64 .positive (m * 2 ^ 52) (e + (0 - 52)) .exact)).unpack := by
    obtain ⟨⟨positive, same⟩, -, -⟩ := digits
    show (Float.Model.pack (UnpackedFloat.mul Format.binary64 _ _)).unpack = _
    rw [same, unit]
    rfl
  simpa only [add_zero] using digits_of_product digits (by omega) (by omega) shape

theorem unpack_toFloat {n gap : Nat} (positive : 0 < n) (full : n.log2 + gap = 52) :
    (n.toUInt64.toFloat).toModel.unpack = (Float.Model.pack
      (roundWithAccuracy Format.binary64 .positive (n * 2 ^ gap * 2 ^ 0) (-gap) .exact)).unpack := by
  have small : n < 2 ^ 53 := (Nat.log2_lt positive.ne').1 (by omega)
  have count : n.toUInt64.toNat = n := by
    simp only [Nat.toUInt64_eq, UInt64.toNat_ofNat']
    omega
  have target : Format.binary64.targetExponent (totalExponent n 0) = -gap := by
    rw [totalExponent, targetExponent_eq (by omega)]
    omega
  have amount : (0 - -(gap : Int)).toNat = gap := by omega
  show (Float.Model.pack (UnpackedFloat.ofNat Format.binary64 n.toUInt64.toNat)).unpack = _
  rw [count, UnpackedFloat.ofNat, UnpackedFloat.ofInt, UnpackedFloat.normalize,
    Int.compare_eq_gt.2 (by omega)]
  simp only [UnpackedFloat.round, Int.toNat_natCast, target, decreaseExponent]
  rw [amount, Nat.shiftLeft_eq, pow_zero, mul_one, zero_sub]

/-- A count that has at most 53 digits is kept as it is. -/
theorem digits_ofNat_small {n : Nat} (positive : 0 < n) (small : n < 2 ^ 53) :
    ∃ m e, Digits (Float.ofNat n).toModel.unpack m e ∧ -52 ≤ e ∧ e ≤ 12 ∧ (m : ℚ) * 2 ^ e = n := by
  have converted : Float.ofNat n = n.toUInt64.toFloat * one := by
    show Float.ofScientific n false 0 = _
    rw [Float.ofScientific, dif_pos ⟨small, by decide⟩]
    rfl
  have width : n.log2 < 53 := (Nat.log2_lt positive.ne').2 small
  obtain ⟨gap, full⟩ : ∃ gap, n.log2 + gap = 52 := ⟨52 - n.log2, by omega⟩
  have filled : (n * 2 ^ gap).log2 = 52 := by rw [log2_mul_pow gap positive, full]
  have unscaled : ((n * 2 ^ gap : Nat) : ℚ) * 2 ^ (-(gap : Int) + (0 : Nat)) = n := by
    push_cast
    rw [add_zero, zpow_neg, zpow_natCast, mul_inv_cancel_right₀ (by positivity)]
  obtain ⟨m, e, digits, low, high, value⟩ :=
    digits_exact (k := 0) (e := -gap) filled (by omega)
  have given := digits.unpack_pack (by omega) (by omega)
  rw [← unpack_toFloat positive full] at given
  obtain ⟨M, E, result, lowResult, highResult, same⟩ :=
    digits_mul_one given (by omega) (by omega)
  rw [converted]
  exact ⟨M, E, result, by omega, by omega, by rw [same, value, unscaled]⟩

theorem unpack_ofNat_large {n : Nat} (large : 2 ^ 53 ≤ n) :
    (Float.ofNat n).toModel.unpack = (Float.Model.pack
      (roundWithAccuracy Format.binary64 .positive (n * 2 ^ 53) (-53) .exact)).unpack := by
  have positive : 0 < n := by omega
  show (Float.ofScientific n false 0).toModel.unpack = _
  rw [Float.ofScientific, dif_neg (fun both => by omega)]
  show (Float.Model.pack (UnpackedFloat.ofScientific Format.binary64 n 0)).unpack = _
  rw [UnpackedFloat.ofScientific, dif_neg positive.ne', if_neg (by decide), if_neg (by simp),
    if_pos (by decide)]
  show (Float.Model.pack (roundWithAccuracy Format.binary64 .positive
    (n <<< 53 * 10 ^ Int.toNat 0) (-53 + 0) .exact)).unpack = _
  rw [Nat.shiftLeft_eq, Int.toNat_zero, pow_zero, mul_one, add_zero]

/-- A count of more than 53 digits is rounded at the unit that leaves 53 of them, and then packed. -/
theorem digits_before_packing {n k : Nat} (large : 2 ^ 53 ≤ n) (width : n.log2 = 52 + k) :
    ∃ f m e, ∃ r : Nat, (Float.ofNat n).toModel.unpack = (Float.Model.pack f).unpack ∧
      Digits f m e ∧ k ≤ e ∧ e ≤ k + 1 ∧ (m : ℚ) * 2 ^ e = r * 2 ^ (k : Int) ∧
      |(r : ℚ) - n / 2 ^ (k : Int)| ≤ 1 / 2 := by
  -- The count is multiplied by a power of two, and what is rounded away makes up for it.
  have wide : (n * 2 ^ 53).log2 = 52 + (k + 53) := by
    rw [log2_mul_pow 53 (by omega), width, add_assoc]
  have unit : -53 + ((k + 53 : Nat) : Int) = k := by omega
  have scaled : ((n * 2 ^ 53 : Nat) : ℚ) / 2 ^ (k + 53) = n / 2 ^ (k : Int) := by
    rw [Nat.cast_mul, Nat.cast_pow, Nat.cast_ofNat, pow_add, zpow_natCast,
      mul_div_mul_right _ _ (by positivity)]
  have rounded := digits_roundWithAccuracy (e := -53) (stands_exact (n * 2 ^ 53)) wide (by omega)
  rw [unit, scaled] at rounded
  obtain ⟨m, e, r, digits⟩ := rounded
  exact ⟨_, m, e, r, unpack_ofNat_large large, digits⟩

theorem digits_ofNat_large {n : Nat} (large : 2 ^ 53 ≤ n) (fits : n < 2 ^ 64) :
    ∃ m e, Digits (Float.ofNat n).toModel.unpack m e ∧ 1 ≤ e ∧ e ≤ 12 := by
  have positive : 0 < n := by omega
  have low : 53 ≤ n.log2 := (Nat.le_log2 positive.ne').2 large
  have high : n.log2 < 64 := (Nat.log2_lt positive.ne').2 fits
  obtain ⟨k, width⟩ := Nat.exists_eq_add_of_le (by omega : 52 ≤ n.log2)
  obtain ⟨f, m, e, -, packed, digits, below, above, -⟩ := digits_before_packing large width
  rw [packed]
  exact ⟨m, e, digits.unpack_pack (by omega) (by omega), by omega, by omega⟩

/-- A count that fits into 64 bits is a double of 53 digits, and exact if it has no more. -/
theorem digits_ofNat {n : Nat} (positive : 0 < n) (fits : n < 2 ^ 64) :
    ∃ m e, Digits (Float.ofNat n).toModel.unpack m e ∧ -52 ≤ e ∧ e ≤ 12 ∧
      (n < 2 ^ 53 → (m : ℚ) * 2 ^ e = n) := by
  rcases Nat.lt_or_ge n (2 ^ 53) with small | large
  · obtain ⟨m, e, digits, low, high, value⟩ := digits_ofNat_small positive small
    exact ⟨m, e, digits, low, high, fun _ => value⟩
  · obtain ⟨m, e, digits, low, high⟩ := digits_ofNat_large large fits
    exact ⟨m, e, digits, by omega, high, fun small => by omega⟩

/-! ## Quotients -/

theorem log2_quotient {m M : Nat} (low : 2 ^ 52 ≤ m) (high : m < 2 ^ 53) (lowDivisor : 2 ^ 52 ≤ M)
    (highDivisor : M < 2 ^ 53) :
    (m * 2 ^ 53 / M).log2 = 52 ∨ (m * 2 ^ 53 / M).log2 = 53 := by
  have positive : 0 < M := by omega
  have lowQuotient : 2 ^ 52 ≤ m * 2 ^ 53 / M := by
    rw [Nat.le_div_iff_mul_le positive]
    omega
  have highQuotient : m * 2 ^ 53 / M < 2 ^ 54 := by
    rw [Nat.div_lt_iff_lt_mul positive]
    omega
  have nonzero : m * 2 ^ 53 / M ≠ 0 := by omega
  have atLeast := (Nat.le_log2 nonzero).2 lowQuotient
  have below := (Nat.log2_lt nonzero).2 highQuotient
  omega

theorem exists_width_quotient {f g : UnpackedFloat} {m M : Nat} {e E : Int} (digits : Digits f m e)
    (divisor : Digits g M E) : ∃ k, k ≤ 1 ∧ (m * 2 ^ 53 / M).log2 = 52 + k := by
  rcases log2_quotient digits.low digits.high divisor.low divisor.high with exact | longer
  · exact ⟨0, by omega, exact⟩
  · exact ⟨1, le_rfl, longer⟩

theorem divCore_eq {m M : Nat} {e E : Int} (width : m.log2 = 52) (widthDivisor : M.log2 = 52)
    (bottom : -1021 ≤ e - E) :
    divCore Format.binary64 m e M E
      = (m * 2 ^ 53 / M, e - E - 53, accuracyOfFraction (m * 2 ^ 53 % M) M) := by
  have target : Format.binary64.targetExponent (totalExponent m e - totalExponent M E)
      = e - E - 53 := by
    rw [totalExponent, totalExponent, width, widthDivisor, targetExponent_eq (by omega)]
    ring
  have least : min (e - E) (e - E - 53) = e - E - 53 := by omega
  have amount : (e - E - (e - E - 53)).toNat = 53 := by omega
  simp only [divCore, target, least, amount, Nat.shiftLeft_eq]

/-- Half a unit in the last of 53 digits is a small part of the number. -/
theorem abs_scaled_sub_le {r : Nat} {z : ℚ} {T : Int} (near : |(r : ℚ) - z| ≤ 1 / 2)
    (low : 2 ^ 52 ≤ z) : |(r : ℚ) * 2 ^ T - z * 2 ^ T| ≤ z * 2 ^ T / 2 ^ 53 := by
  have scale : (0 : ℚ) < 2 ^ T := by positivity
  rw [← sub_mul, abs_mul, abs_of_pos scale]
  calc |(r : ℚ) - z| * 2 ^ T ≤ 1 / 2 * 2 ^ T := by gcongr
    _ = 2 ^ 52 * 2 ^ T / 2 ^ 53 := by ring
    _ ≤ z * 2 ^ T / 2 ^ 53 := by gcongr

theorem div_finite {m M : Nat} {e E : Int} (positive : 0 < m) (positiveDivisor : 0 < M) :
    UnpackedFloat.div Format.binary64 (.finite .positive m e positive)
        (.finite .positive M E positiveDivisor)
      = roundWithAccuracy Format.binary64 .positive (divCore Format.binary64 m e M E).1
          (divCore Format.binary64 m e M E).2.1 (divCore Format.binary64 m e M E).2.2 := rfl

theorem unpack_div {x y : Float} {m M : Nat} {e E : Int} (digits : Digits x.toModel.unpack m e)
    (divisor : Digits y.toModel.unpack M E) (bottom : -1021 ≤ e - E) :
    (x / y).toModel.unpack = (Float.Model.pack (roundWithAccuracy Format.binary64 .positive
      (m * 2 ^ 53 / M) (e - E - 53) (accuracyOfFraction (m * 2 ^ 53 % M) M))).unpack := by
  have core := divCore_eq digits.log2 divisor.log2 bottom
  obtain ⟨⟨_, same⟩, -, -⟩ := digits
  obtain ⟨⟨_, sameDivisor⟩, -, -⟩ := divisor
  show (Float.Model.pack (UnpackedFloat.div Format.binary64 _ _)).unpack = _
  rw [same, sameDivisor, div_finite, core]

/-- The quotient of two doubles is off by half a unit in the last place at most. -/
theorem reads_div {x y : Float} {m M : Nat} {e E : Int} (digits : Digits x.toModel.unpack m e)
    (divisor : Digits y.toModel.unpack M E) (bottom : -1000 ≤ e - E) (top : e - E ≤ 1000) :
    ∃ q, Reads (x / y) q ∧
      |q - (m : ℚ) * 2 ^ e / (M * 2 ^ E)| ≤ (m : ℚ) * 2 ^ e / (M * 2 ^ E) / 2 ^ 53 := by
  have stands := stands_fraction (m * 2 ^ 53) (lt_of_lt_of_le (by decide) divisor.low)
  obtain ⟨k, narrow, width⟩ := exists_width_quotient digits divisor
  obtain ⟨Q, F, r, result, low, high, value, near⟩ :=
    digits_roundWithAccuracy (e := e - E - 53) stands width (by omega)
  have exact : ((m * 2 ^ 53 : Nat) : ℚ) / M / 2 ^ k * 2 ^ (e - E - 53 + k)
      = m * 2 ^ e / (M * 2 ^ E) := by
    rw [zpow_add₀ two_ne_zero, zpow_sub₀ two_ne_zero, zpow_sub₀ two_ne_zero, zpow_natCast]
    push_cast
    field_simp
  refine ⟨Q * 2 ^ F, ⟨Q, F, ?_, rfl⟩, ?_⟩
  · rw [unpack_div digits divisor (by omega)]
    exact result.unpack_pack (by omega) (by omega)
  · rw [value, ← exact]
    exact abs_scaled_sub_le near (stands.shifted_bounds width).1

theorem unpack_div_congr {x y z w : Float} {m M n N : Nat} {e E f F : Int}
    (digits : Digits x.toModel.unpack m e) (divisor : Digits y.toModel.unpack M E)
    (others : Digits z.toModel.unpack n f) (otherDivisor : Digits w.toModel.unpack N F)
    (bottom : -1000 ≤ e - E) (bottomOther : -1000 ≤ f - F)
    (same : (m : ℚ) * 2 ^ e / (M * 2 ^ E) = n * 2 ^ f / (N * 2 ^ F)) :
    (x / y).toModel.unpack = (z / w).toModel.unpack := by
  obtain ⟨k, -, width⟩ := exists_width_quotient digits divisor
  obtain ⟨K, -, widthOther⟩ := exists_width_quotient others otherDivisor
  have stands := stands_fraction (m * 2 ^ 53) (lt_of_lt_of_le (by decide) divisor.low)
  have standsToo := stands_fraction (n * 2 ^ 53) (lt_of_lt_of_le (by decide) otherDivisor.low)
  have value (p q : Nat) (a b : Int) :
      ((p * 2 ^ 53 : Nat) : ℚ) / q * 2 ^ (a - b - 53) = p * 2 ^ a / (q * 2 ^ b) := by
    rw [zpow_sub₀ two_ne_zero, zpow_sub₀ two_ne_zero]
    push_cast
    field_simp
  have rounded := roundWithAccuracy_congr (e := e - E - 53) (E := f - F - 53) stands width
    (by omega) standsToo widthOther (by omega) (by rw [value, value, same])
  rw [unpack_div digits divisor (by omega), unpack_div others otherDivisor (by omega), rounded]

/-! ## Shares -/

section Shares

variable {part whole : Nat}

/-- A share of counts that fit into 64 bits is a proper double; below `2 ^ 53` it is close. -/
theorem reads_ratio (some : 0 < part) (within : part ≤ whole) (fits : whole < 2 ^ 64) :
    ∃ v, Reads (ratio part whole) v ∧
      (whole < 2 ^ 53 → |v - part / whole| ≤ (part : ℚ) / whole / 2 ^ 53) := by
  obtain ⟨m, e, digits, low, high, value⟩ := digits_ofNat some (by omega)
  obtain ⟨M, E, divisor, lowDivisor, highDivisor, valueDivisor⟩ :=
    digits_ofNat (Nat.lt_of_lt_of_le some within) fits
  obtain ⟨v, reads, near⟩ := reads_div digits divisor (by omega) (by omega)
  rw [ratio, if_neg (by omega)]
  refine ⟨v, reads, fun small => ?_⟩
  rw [value (by omega), valueDivisor small] at near
  exact near

variable {otherPart otherWhole : Nat}

/-- Fractions with denominators below `2 ^ 26` are apart by more than `1 / 2 ^ 52`. -/
theorem gap_of_lt (positive : 0 < whole) (small : whole < 2 ^ 26) (otherPositive : 0 < otherWhole)
    (otherSmall : otherWhole < 2 ^ 26) (less : (part : ℚ) / whole < otherPart / otherWhole) :
    1 / 2 ^ 52 < (otherPart : ℚ) / otherWhole - part / whole := by
  have scale : (0 : ℚ) < whole := by exact_mod_cast positive
  have otherScale : (0 : ℚ) < otherWhole := by exact_mod_cast otherPositive
  have product : (whole : ℚ) * otherWhole < 2 ^ 52 := by
    have : whole * otherWhole < 2 ^ 26 * 2 ^ 26 := Nat.mul_lt_mul'' small otherSmall
    exact_mod_cast this
  have crossed : (1 : ℚ) ≤ otherPart * whole - part * otherWhole := by
    rw [div_lt_div_iff₀ scale otherScale] at less
    have : part * otherWhole + 1 ≤ otherPart * whole := by exact_mod_cast less
    have : (part : ℚ) * otherWhole + 1 ≤ otherPart * whole := by exact_mod_cast this
    linarith
  calc (1 : ℚ) / 2 ^ 52 < 1 / (whole * otherWhole) := by gcongr
    _ ≤ (otherPart * whole - part * otherWhole) / (whole * otherWhole) := by gcongr
    _ = otherPart / otherWhole - part / whole := by field_simp

/-- Shares of counts below `2 ^ 26` that differ are told apart. -/
theorem ratio_lt_of_lt (some : 0 < part) (within : part ≤ whole) (small : whole < 2 ^ 26)
    (otherSome : 0 < otherPart) (otherWithin : otherPart ≤ otherWhole)
    (otherSmall : otherWhole < 2 ^ 26) (less : (part : ℚ) / whole < otherPart / otherWhole) :
    ratio part whole < ratio otherPart otherWhole := by
  obtain ⟨v, reads, near⟩ := reads_ratio some within (by omega)
  obtain ⟨w, otherReads, otherNear⟩ := reads_ratio otherSome otherWithin (by omega)
  obtain ⟨-, above⟩ := abs_le.1 (near (by omega))
  obtain ⟨below, -⟩ := abs_le.1 (otherNear (by omega))
  have gap := gap_of_lt (by omega) small (by omega) otherSmall less
  have atMostOne : (otherPart : ℚ) / otherWhole ≤ 1 := by
    apply div_le_one_of_le₀ _ (Nat.cast_nonneg _)
    exact_mod_cast otherWithin
  rw [reads.lt_iff otherReads]
  linarith

theorem unpack_ratio_congr (some : 0 < part) (within : part ≤ whole) (small : whole < 2 ^ 53)
    (otherSome : 0 < otherPart) (otherWithin : otherPart ≤ otherWhole)
    (otherSmall : otherWhole < 2 ^ 53) (same : (part : ℚ) / whole = otherPart / otherWhole) :
    (ratio part whole).toModel.unpack = (ratio otherPart otherWhole).toModel.unpack := by
  obtain ⟨m, e, digits, low, high, value⟩ := digits_ofNat_small some (by omega)
  obtain ⟨M, E, divisor, lowDivisor, highDivisor, valueDivisor⟩ :=
    digits_ofNat_small (Nat.lt_of_lt_of_le some within) small
  obtain ⟨n, f, others, lowOther, highOther, valueOther⟩ :=
    digits_ofNat_small otherSome (by omega)
  obtain ⟨N, F, otherDivisor, lowOtherDivisor, highOtherDivisor, valueOtherDivisor⟩ :=
    digits_ofNat_small (Nat.lt_of_lt_of_le otherSome otherWithin) otherSmall
  rw [ratio, ratio, if_neg (by omega), if_neg (by omega)]
  refine unpack_div_congr digits divisor others otherDivisor (by omega) (by omega) ?_
  rw [value, valueDivisor, valueOther, valueOtherDivisor, same]

/-- Shares of counts below `2 ^ 26` are in the order of the fractions. -/
theorem ratio_lt_iff (some : 0 < part) (within : part ≤ whole) (small : whole < 2 ^ 26)
    (otherSome : 0 < otherPart) (otherWithin : otherPart ≤ otherWhole)
    (otherSmall : otherWhole < 2 ^ 26) :
    ratio part whole < ratio otherPart otherWhole ↔ (part : ℚ) / whole < otherPart / otherWhole := by
  refine ⟨fun less => ?_, ratio_lt_of_lt some within small otherSome otherWithin otherSmall⟩
  obtain ⟨v, reads, -⟩ := reads_ratio some within (by omega)
  obtain ⟨w, otherReads, -⟩ := reads_ratio otherSome otherWithin (by omega)
  rw [reads.lt_iff otherReads] at less
  by_contra notLess
  rcases (not_lt.1 notLess).lt_or_eq with more | same
  · have reversed := ratio_lt_of_lt otherSome otherWithin otherSmall some within small more
    rw [otherReads.lt_iff reads] at reversed
    exact less.not_gt reversed
  · have values : w = v := by
      rw [← otherReads.value_eq, ← reads.value_eq, value, value,
        unpack_ratio_congr otherSome otherWithin (by omega) some within (by omega) same]
    exact less.ne' values

end Shares

end LoadBearing.Double
