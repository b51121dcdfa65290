import LoadBearing.Proofs.Severity

/-! # The order of doubles

Doubles are sorted by their bits and compared as numbers.  Both go by `level`, the place of a number
among all by size, up to the sign of a zero and of what lies below it.

A count becomes the nearest double, and past the largest one infinity.  The nearest numbers to two
counts are never in the wrong order (`Nearest.mono`), whatever their size and wherever ties go, so
counts can be compared as doubles.
-/

namespace LoadBearing.Double

open Float.Model Float.Model.UnpackedFloat

/-! ## Two orders -/

/-- The place of a number among all by size; zero is in the middle. -/
def level : UnpackedFloat → ℤ
  | .notANumber => 0
  | .infinity s => s.apply (2047 * 2 ^ 52)
  | .zero _ => 0
  | .finite s m e _ => s.apply ((e + 1074) * 2 ^ 52 + m)

theorem then_eq_lt_iff {m M : Nat} {e E : ℤ} (high : m < 2 ^ 53) (highRight : M < 2 ^ 53)
    (low : -1074 ≤ e) (lowRight : -1074 ≤ E) (full : 2 ^ 52 ≤ m ∨ e = -1074)
    (fullRight : 2 ^ 52 ≤ M ∨ E = -1074) :
    (compare e E).then (compare m M) = .lt ↔
      (e + 1074) * 2 ^ 52 + m < (E + 1074) * 2 ^ 52 + M := by
  rw [Ordering.then_eq_lt, Int.compare_eq_lt, Int.compare_eq_eq, Nat.compare_eq_lt]
  omega

theorem compare_eq_lt_iff {f g : UnpackedFloat} {p q : ℤ} (left : Written p f) (right : Written q g)
    (number : f ≠ .notANumber) (numberRight : g ≠ .notANumber) :
    f.compare g = some .lt ↔ level f < level g := by
  -- Signs decide unless both are finite with one sign; then the exponents do, and after them the
  -- digits, which agrees with the levels because both mantissas are full or at the bottom.
  cases f with
  | notANumber => exact absurd rfl number
  | infinity s =>
    cases g with
    | notANumber => exact absurd rfl numberRight
    | infinity t => cases s <;> cases t <;> decide
    | zero t => cases s <;> cases t <;> decide
    | finite t M E positive =>
      obtain ⟨-, high, low, top, -⟩ := right
      cases s <;> cases t <;> dsimp only [UnpackedFloat.compare, level, Sign.apply] <;> simp <;> omega
  | zero s =>
    cases g with
    | notANumber => exact absurd rfl numberRight
    | infinity t => cases s <;> cases t <;> decide
    | zero t => cases s <;> cases t <;> decide
    | finite t M E positive =>
      obtain ⟨-, high, low, top, -⟩ := right
      cases s <;> cases t <;> dsimp only [UnpackedFloat.compare, level, Sign.apply] <;> simp <;> omega
  | finite s m e positive =>
    obtain ⟨-, high, low, top, full⟩ := left
    cases g with
    | notANumber => exact absurd rfl numberRight
    | infinity t =>
      cases s <;> cases t <;> dsimp only [UnpackedFloat.compare, level, Sign.apply] <;> simp <;> omega
    | zero t =>
      cases s <;> cases t <;> dsimp only [UnpackedFloat.compare, level, Sign.apply] <;> simp <;> omega
    | finite t M E positiveRight =>
      obtain ⟨-, highRight, lowRight, topRight, fullRight⟩ := right
      have forth := then_eq_lt_iff high highRight low lowRight full fullRight
      have back := then_eq_lt_iff highRight high lowRight low fullRight full
      cases s <;> cases t
      · have swapped : ((compare e E).then (compare m M)).swap
            = (compare E e).then (compare M m) := by
          rw [Ordering.swap_then, Int.compare_swap, Nat.compare_swap]
        show some ((compare e E).then (compare m M)).swap = some .lt ↔ -_ < -_
        rw [Option.some.injEq, swapped, back, neg_lt_neg_iff]
      · dsimp only [UnpackedFloat.compare, level, Sign.apply]
        simp
        omega
      · dsimp only [UnpackedFloat.compare, level, Sign.apply]
        simp
        omega
      · show some ((compare e E).then (compare m M)) = some .lt ↔ _
        rw [Option.some.injEq, forth]
        rfl

/-- The bits of a number are a sign and a size, and its level is the size with the sign. -/
theorem Written.exists_size {bits : ℤ} {f : UnpackedFloat} (written : Written bits f)
    (number : f ≠ .notANumber) :
    ∃ (s : Sign) (size : ℤ), 0 ≤ size ∧ size < 2 ^ 63 ∧ bits = signWeight s + size ∧
      level f = s.apply size := by
  cases f with
  | notANumber => exact absurd rfl number
  | infinity s => exact ⟨s, 2047 * 2 ^ 52, by decide, by decide, written, rfl⟩
  | zero s => exact ⟨s, 0, le_rfl, by decide, written.trans (add_zero _).symm, by cases s <;> rfl⟩
  | finite s m e positive =>
    obtain ⟨bits, high, low, top, -⟩ := written
    exact ⟨s, (e + 1074) * 2 ^ 52 + m, by omega, by omega, bits, rfl⟩

/-- The total order places a number by its level, with what has a minus sign one further down. -/
theorem orderKey_cases {x : Float} (number : x.toModel.unpack ≠ .notANumber) :
    0 ≤ level x.toModel.unpack ∧ Decimal.orderKey x = level x.toModel.unpack ∨
      level x.toModel.unpack ≤ 0 ∧ Decimal.orderKey x = level x.toModel.unpack - 1 := by
  obtain ⟨s, size, least, most, bits, same⟩ := (written_unpack x).exists_size number
  have range : bitRange 63 = 2 ^ 63 := rfl
  rw [Decimal.orderKey, Decimal.wordKey, same]
  simp only [range]
  -- The sign is the top bit, and what has it set is counted downwards.
  cases s with
  | positive =>
    rw [signWeight] at bits
    rw [Sign.apply, if_pos (by omega)]
    omega
  | negative =>
    rw [signWeight] at bits
    rw [Sign.apply, if_neg (by omega)]
    omega

theorem numbers_of_lt {x y : Float} (less : x < y) :
    x.toModel.unpack ≠ .notANumber ∧ y.toModel.unpack ≠ .notANumber := by
  rw [lt_iff_compare] at less
  constructor
  · intro none
    rw [none] at less
    cases less
  · intro none
    rw [none] at less
    cases form : x.toModel.unpack <;> rw [form] at less <;> cases less

theorem lt_iff_level {x y : Float} (number : x.toModel.unpack ≠ .notANumber)
    (numberRight : y.toModel.unpack ≠ .notANumber) :
    x < y ↔ level x.toModel.unpack < level y.toModel.unpack :=
  lt_iff_compare.trans (compare_eq_lt_iff (written_unpack x) (written_unpack y) number numberRight)

/-- The total order agrees with the order of numbers. -/
theorem orderKey_lt_of_lt {x y : Float} (less : x < y) :
    Decimal.orderKey x < Decimal.orderKey y := by
  obtain ⟨number, numberRight⟩ := numbers_of_lt less
  have levels := (lt_iff_level number numberRight).1 less
  rcases orderKey_cases number with left | left <;>
    rcases orderKey_cases numberRight with right | right <;> omega

structure IsSize (x : Float) : Prop where
  number : x.toModel.unpack ≠ .notANumber
  nonneg : 0 ≤ Decimal.orderKey x

theorem IsSize.isNaN_eq_false {x : Float} (size : IsSize x) : x.isNaN = false := by
  have number := size.number
  show x.toModel.unpack.isNaN = false
  cases unpacked : x.toModel.unpack with
  | notANumber => exact absurd unpacked number
  | zero | finite | infinity => rfl

theorem IsSize.orderKey_eq {x : Float} (size : IsSize x) :
    Decimal.orderKey x = level x.toModel.unpack := by
  have nonneg := size.nonneg
  rcases orderKey_cases size.number with above | below <;> omega

/-- Among sizes the two orders are one. -/
theorem IsSize.lt_iff {x y : Float} (left : IsSize x) (right : IsSize y) :
    x < y ↔ Decimal.orderKey x < Decimal.orderKey y := by
  rw [lt_iff_level left.number right.number, left.orderKey_eq, right.orderKey_eq]

/-! ## Counts -/

/-- A number of 53 digits that is nearest to a count: the count is rounded at the unit that leaves
    53 digits of it. -/
structure Nearest (n m : Nat) (e : ℤ) : Prop where
  low : 2 ^ 52 ≤ m
  high : m < 2 ^ 53
  rounded : ∃ (T : ℤ) (r : Nat), (m : ℚ) * 2 ^ e = r * 2 ^ T ∧ |(r : ℚ) - n / 2 ^ T| ≤ 1 / 2 ∧
    (2 : ℚ) ^ (52 + T) ≤ n ∧ (n : ℚ) < 2 ^ (53 + T)

/-- Rounding to the nearest keeps the order of counts. -/
theorem Nearest.mono {n k m M : Nat} {e E : ℤ} (left : Nearest n m e) (right : Nearest k M E)
    (less : n < k) : (m : ℚ) * 2 ^ e ≤ M * 2 ^ E := by
  obtain ⟨T, r, value, near, low, high⟩ := left.rounded
  obtain ⟨U, s, valueRight, nearRight, lowRight, highRight⟩ := right.rounded
  have lessCast : (n : ℚ) < k := by exact_mod_cast less
  have unit : (0 : ℚ) < 2 ^ T := by positivity
  have unitRight : (0 : ℚ) < 2 ^ U := by positivity
  obtain ⟨-, above⟩ := abs_le.1 near
  obtain ⟨below, -⟩ := abs_le.1 nearRight
  have units := lt_of_two_zpow_lt (low.trans_lt (lessCast.trans highRight))
  rw [value, valueRight]
  rcases (by omega : T < U ∨ T = U) with finer | rfl
  · -- Digits at a finer unit end where those at the coarser one begin.
    have atMost : (r : ℚ) ≤ 2 ^ 53 := by
      have scaled : (n : ℚ) / 2 ^ T < 2 ^ 53 := by
        rw [div_lt_iff₀ unit]
        exact high.trans_eq (zpow_add₀ two_ne_zero 53 T)
      have : (r : ℚ) < 2 ^ 53 + 1 := by linarith
      exact_mod_cast Nat.lt_succ_iff.1 (by exact_mod_cast this)
    have atLeast := le_of_near lowRight nearRight
    calc (r : ℚ) * 2 ^ T ≤ 2 ^ 53 * 2 ^ T := by gcongr
      _ = 2 ^ 52 * 2 ^ (T + 1) := by rw [zpow_add_one₀ two_ne_zero]; ring
      _ ≤ s * 2 ^ U := by gcongr; exacts [one_le_two, finer]
  · -- Nearest numbers in the wrong order would put the counts in the wrong order.
    have ordered : r ≤ s := by
      by_contra wrong
      have apart : (s : ℚ) + 1 ≤ r := by exact_mod_cast Nat.lt_of_not_le wrong
      have quotients : (n : ℚ) / 2 ^ T < k / 2 ^ T := by gcongr
      linarith
    gcongr

theorem orderKey_of_infinity {x : Float} (infinite : x.toModel.unpack = .infinity .positive) :
    Decimal.orderKey x = 2047 * 2 ^ 52 := by
  have number : x.toModel.unpack ≠ .notANumber := by rw [infinite]; nofun
  rcases orderKey_cases number with ⟨-, key⟩ | ⟨below, -⟩
  · rw [key, infinite]
    rfl
  · rw [infinite] at below
    exact absurd below (by decide)

theorem isSize_of_digits {x : Float} {m : Nat} {e : ℤ} (digits : Digits x.toModel.unpack m e) :
    IsSize x := by
  have key := orderKey_of_digits digits
  obtain ⟨-, -, bottom⟩ := toBits_of_digits digits
  obtain ⟨⟨_, form⟩, -, -⟩ := digits
  exact ⟨by rw [form]; nofun, by omega⟩

/-- Digits that are packed stand at their place, or at that of infinity. -/
theorem isSize_of_packed {x : Float} {f : UnpackedFloat} {m : Nat} {e : ℤ} (digits : Digits f m e)
    (bottom : -1074 ≤ e) (packed : x.toModel.unpack = (Float.Model.pack f).unpack) :
    IsSize x ∧ Decimal.orderKey x = min ((e + 1074) * 2 ^ 52 + m) (2047 * 2 ^ 52) := by
  have low := digits.low
  have high := digits.high
  rcases Int.lt_or_le 971 e with beyond | fits
  · have infinite := packed.trans (digits.unpack_pack_overflow beyond)
    have key := orderKey_of_infinity infinite
    exact ⟨⟨by rw [infinite]; nofun, by omega⟩, by omega⟩
  · have given := digits.unpack_pack bottom fits
    rw [← packed] at given
    have key := orderKey_of_digits given
    exact ⟨isSize_of_digits given, by omega⟩

theorem nearest_exact {n m : Nat} {e : ℤ} (low : 2 ^ 52 ≤ m) (high : m < 2 ^ 53)
    (exact : (m : ℚ) * 2 ^ e = n) : Nearest n m e := by
  have unit : (0 : ℚ) < 2 ^ e := by positivity
  have lowCast : (2 : ℚ) ^ 52 ≤ m := by exact_mod_cast low
  have highCast : (m : ℚ) < 2 ^ 53 := by exact_mod_cast high
  refine ⟨low, high, e, m, rfl, ?_, ?_, ?_⟩
  · rw [← exact, mul_div_cancel_right₀ _ unit.ne']
    norm_num
  · rw [← exact, zpow_add₀ two_ne_zero]
    exact mul_le_mul_of_nonneg_right (by exact_mod_cast lowCast) unit.le
  · rw [← exact, zpow_add₀ two_ne_zero]
    exact mul_lt_mul_of_pos_right (by exact_mod_cast highCast) unit

/-- A count becomes the nearest double, or infinity if that is out of range. -/
theorem ofNat_nearest {n : Nat} (positive : 0 < n) :
    ∃ m e, Nearest n m e ∧ IsSize (Float.ofNat n) ∧
      Decimal.orderKey (Float.ofNat n) = min ((e + 1074) * 2 ^ 52 + m) (2047 * 2 ^ 52) := by
  rcases Nat.lt_or_ge n (2 ^ 53) with small | large
  · obtain ⟨m, e, digits, low, high, value⟩ := digits_ofNat_small positive small
    have key := orderKey_of_digits digits
    have nearest := nearest_exact digits.low digits.high value
    have top := digits.high
    exact ⟨m, e, nearest, isSize_of_digits digits, by omega⟩
  · have long : 53 ≤ n.log2 := (Nat.le_log2 positive.ne').2 large
    obtain ⟨k, width⟩ := Nat.exists_eq_add_of_le (by omega : 52 ≤ n.log2)
    obtain ⟨f, m, e, r, packed, digits, below, -, value, near⟩ := digits_before_packing large width
    obtain ⟨least, most⟩ : (2 : ℚ) ^ (52 + (k : ℤ)) ≤ n ∧ (n : ℚ) < 2 ^ (53 + (k : ℤ)) := by
      simpa using value_bounds_of_log2 width 0
    obtain ⟨size, key⟩ := isSize_of_packed digits (by omega) packed
    exact ⟨m, e, ⟨digits.low, digits.high, k, r, value, near, least, most⟩, size, key⟩

theorem isSize_ofNat (n : Nat) : IsSize (Float.ofNat n) := by
  rcases Nat.eq_zero_or_pos n with rfl | positive
  · have zero : (Float.ofNat 0).toModel.unpack = .zero .positive := rfl
    exact ⟨by rw [zero]; nofun, by decide⟩
  · obtain ⟨_, _, -, size, -⟩ := ofNat_nearest positive
    exact size

/-- Counts keep their order as doubles, though different ones may become one. -/
theorem orderKey_ofNat_mono {n k : Nat} (atMost : n ≤ k) :
    Decimal.orderKey (Float.ofNat n) ≤ Decimal.orderKey (Float.ofNat k) := by
  -- Zero has no digits, so it is the one count without a nearest number of 53 of them.
  rcases Nat.eq_zero_or_pos n with rfl | positive
  · exact (isSize_ofNat k).nonneg
  · rcases atMost.eq_or_lt with rfl | less
    · exact le_rfl
    · obtain ⟨m, e, nearest, -, key⟩ := ofNat_nearest positive
      obtain ⟨M, E, nearestRight, -, keyRight⟩ := ofNat_nearest (positive.trans less)
      have places := (place_le_iff nearest.low nearest.high nearestRight.low nearestRight.high).2
        (nearest.mono nearestRight less)
      rw [key, keyRight]
      exact min_le_min_right _ places

end LoadBearing.Double
