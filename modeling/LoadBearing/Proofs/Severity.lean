import LoadBearing.Comparison.Compare
import LoadBearing.Proofs.Rounding

/-! # Severities as doubles

A severity is a sum of doubles, and every step of the sum may round.  What is added are halves.  A
double that counts units is exact below `2 ^ 53` of them and never falls below that many once it may
have been rounded (`Counts`), and products with powers of two and sums keep this.  So severities are
in the order of the exact numbers as long as one of them is below `2 ^ 52`.
-/

namespace LoadBearing

namespace Double

open Float.Model Float.Model.UnpackedFloat

/-! ## Places in the order -/

theorem toNat_fields (b : BitVec 64) :
    (@unpackExponent Format.binary64 b).toNat = b.toNat / 2 ^ 52 % 2 ^ 11 ∧
      (@unpackMantissa Format.binary64 b).toNat = b.toNat % 2 ^ 52 ∧
      (@unpackSign Format.binary64 b).toNat = b.toNat / 2 ^ 63 % 2 := by
  refine ⟨?_, ?_, ?_⟩
  · simp [unpackExponent, Nat.shiftRight_eq_div_pow]
  · simp [unpackMantissa]
  · delta unpackSign
    simp [Nat.shiftRight_eq_div_pow]

def signWeight : Sign → ℤ
  | .positive => 0
  | .negative => 2 ^ 63

/-- The bits of a double by its form: the sign, then the exponent above the digits after the first.
    Numbers with fewer than 53 digits have the least exponent. -/
def Written (bits : ℤ) : UnpackedFloat → Prop
  | .notANumber => True
  | .infinity s => bits = signWeight s + 2047 * 2 ^ 52
  | .zero s => bits = signWeight s
  | .finite s m e _ => bits = signWeight s + ((e + 1074) * 2 ^ 52 + m) ∧ m < 2 ^ 53 ∧
      -1074 ≤ e ∧ e ≤ 971 ∧ (2 ^ 52 ≤ m ∨ e = -1074)

theorem written_finite_iff {bits : ℤ} {s : Sign} {m : Nat} {e : Int} {positive : 0 < m} :
    Written bits (.finite s m e positive) ↔
      bits = signWeight s + ((e + 1074) * 2 ^ 52 + m) ∧ m < 2 ^ 53 ∧
        -1074 ≤ e ∧ e ≤ 971 ∧ (2 ^ 52 ≤ m ∨ e = -1074) := .rfl

theorem signWeight_ofBitVec (bit : BitVec 1) :
    signWeight (Sign.ofBitVec bit) = bit.toNat * 2 ^ 63 := by
  revert bit
  decide

theorem written_unpack (x : Float) : Written x.toBits.toNat x.toModel.unpack := by
  change Written x.toBits.toBitVec.toNat (UnpackedFloat.unpack Format.binary64 x.toBits.toBitVec)
  generalize x.toBits.toBitVec = b
  have size : b.toNat < 2 ^ 64 := b.isLt
  obtain ⟨exponent, mantissa, sign⟩ := toNat_fields b
  have weight := signWeight_ofBitVec (@unpackSign Format.binary64 b)
  delta UnpackedFloat.unpack
  dsimp only
  by_cases full : @unpackExponent Format.binary64 b = -1#11
  · have ones : b.toNat / 2 ^ 52 % 2 ^ 11 = 2047 := exponent ▸ congrArg BitVec.toNat full
    rw [if_pos full]
    by_cases none : @unpackMantissa Format.binary64 b = 0#52
    · have nothing : b.toNat % 2 ^ 52 = 0 := mantissa ▸ congrArg BitVec.toNat none
      rw [if_pos none]
      show (b.toNat : ℤ) = signWeight _ + 2047 * 2 ^ 52
      rw [weight, sign]
      omega
    · rw [if_neg none]
      trivial
  have notOnes : b.toNat / 2 ^ 52 % 2 ^ 11 ≠ 2047 := fun ones =>
    full (BitVec.eq_of_toNat_eq (exponent.trans ones))
  rw [if_neg full]
  by_cases zero : @unpackExponent Format.binary64 b = 0#11
  · have nothing : b.toNat / 2 ^ 52 % 2 ^ 11 = 0 := exponent ▸ congrArg BitVec.toNat zero
    rw [if_pos zero]
    by_cases none : @unpackMantissa Format.binary64 b = 0#52
    · have nothing : b.toNat % 2 ^ 52 = 0 := mantissa ▸ congrArg BitVec.toNat none
      rw [dif_pos none]
      show (b.toNat : ℤ) = signWeight _
      rw [weight, sign]
      omega
    · rw [dif_neg none, written_finite_iff, weight, sign, exponent, mantissa]
      simp only [Format.exponentBias]
      omega
  · have some : b.toNat / 2 ^ 52 % 2 ^ 11 ≠ 0 := fun none =>
      zero (BitVec.eq_of_toNat_eq (exponent.trans none))
    rw [if_neg zero, written_finite_iff, weight, sign, exponent, toNat_implicit, mantissa]
    simp only [Format.exponentBias]
    omega

/-- The bits of a double of 53 digits: the exponent stands above the digits after the first. -/
theorem toBits_of_digits {x : Float} {m : Nat} {e : Int} (digits : Digits x.toModel.unpack m e) :
    (x.toBits.toNat : Int) = (e + 1074) * 2 ^ 52 + m ∧ x.toBits.toNat < 2 ^ 63 ∧ -1074 ≤ e := by
  have written := written_unpack x
  obtain ⟨⟨_, same⟩, -, -⟩ := digits
  rw [same] at written
  obtain ⟨bits, high, low, top, -⟩ := written
  rw [signWeight, zero_add] at bits
  omega

theorem orderKey_of_digits {x : Float} {m : Nat} {e : Int} (digits : Digits x.toModel.unpack m e) :
    Decimal.orderKey x = (e + 1074) * 2 ^ 52 + m := by
  obtain ⟨bits, noSign, -⟩ := toBits_of_digits digits
  have noSign : x.toBits.toNat < bitRange 63 := noSign
  rw [Decimal.orderKey, Decimal.wordKey, if_pos noSign, bits]

theorem Reads.pos {x : Float} {v : ℚ} (reads : Reads x v) : 0 < v := by
  obtain ⟨m, e, digits, rfl⟩ := reads
  have low := digits.low
  have : 0 < m := by omega
  positivity

theorem Reads.orderKey_pos {x : Float} {v : ℚ} (reads : Reads x v) : 0 < Decimal.orderKey x := by
  obtain ⟨m, e, digits, -⟩ := reads
  have low := digits.low
  have bottom := (toBits_of_digits digits).2.2
  rw [orderKey_of_digits digits]
  omega

theorem Reads.orderKey_le_iff {x y : Float} {v w : ℚ} (left : Reads x v) (right : Reads y w) :
    Decimal.orderKey x ≤ Decimal.orderKey y ↔ v ≤ w := by
  obtain ⟨m, e, digits, rfl⟩ := left
  obtain ⟨M, E, others, rfl⟩ := right
  rw [orderKey_of_digits digits, orderKey_of_digits others]
  exact place_le_iff digits.low digits.high others.low others.high

/-- A double is zero or a positive one with an exponent up to `top`, and it is worth this number. -/
def Worth (x : Float) (v : ℚ) (top : Int) : Prop :=
  x = 0 ∧ v = 0 ∨ ∃ m e, Digits x.toModel.unpack m e ∧ e ≤ top ∧ (m : ℚ) * 2 ^ e = v

theorem Worth.zero_or_reads {x : Float} {v : ℚ} {top : Int} (worth : Worth x v top) :
    x = 0 ∧ v = 0 ∨ Reads x v :=
  worth.imp_right fun ⟨m, e, digits, _, value⟩ => ⟨m, e, digits, value⟩

theorem Worth.orderKey_le_iff {x y : Float} {v w : ℚ} {top rightTop : Int} (left : Worth x v top)
    (right : Worth y w rightTop) : Decimal.orderKey x ≤ Decimal.orderKey y ↔ v ≤ w := by
  have zero : Decimal.orderKey 0 = 0 := rfl
  rcases left.zero_or_reads with ⟨rfl, rfl⟩ | reads <;>
    rcases right.zero_or_reads with ⟨rfl, rfl⟩ | others
  · simp
  · simp [zero, others.orderKey_pos.le, others.pos.le]
  · simp [zero, reads.orderKey_pos.not_ge, reads.pos.not_ge]
  · exact reads.orderKey_le_iff others

/-! ## Sums -/

section Sums

variable {x y : Float} {m M : Nat} {e E : Int}

theorem Digits.value_bounds {f : UnpackedFloat} (digits : Digits f m e) :
    (2 : ℚ) ^ (52 + e) ≤ m * 2 ^ e ∧ (m : ℚ) * 2 ^ e < 2 ^ (53 + e) := by
  have low : (2 : ℚ) ^ 52 ≤ m := by exact_mod_cast digits.low
  have high : (m : ℚ) < 2 ^ 53 := by exact_mod_cast digits.high
  rw [zpow_add₀ two_ne_zero, zpow_add₀ two_ne_zero]
  constructor
  · gcongr
    exact_mod_cast low
  · gcongr
    exact_mod_cast high

theorem lt_of_two_zpow_lt {a b : Int} (less : (2 : ℚ) ^ a < 2 ^ b) : a < b :=
  (zpow_lt_zpow_iff_right₀ one_lt_two).1 less

theorem value_lowered {low : Int} (m : Nat) (below : low ≤ e) :
    ((m * 2 ^ (e - low).toNat : Nat) : ℚ) * 2 ^ low = m * 2 ^ e := by
  have split : e = ((e - low).toNat : Int) + low := by omega
  conv_rhs => rw [split, zpow_add₀ two_ne_zero, zpow_natCast]
  push_cast
  ring

theorem log2_lowered (digits : Digits x.toModel.unpack m e) (k : Nat) (rest : Nat) :
    52 ≤ (m * 2 ^ k + rest).log2 := by
  have low := digits.low
  have grown : m * 1 ≤ m * 2 ^ k := Nat.mul_le_mul_left m Nat.one_le_two_pow
  exact (Nat.le_log2 (by omega)).2 (by omega)

/-- Rounding has nothing to add to a mantissa of 53 digits or more. -/
theorem round_eq {n : Nat} (sign : Sign) (wide : 52 ≤ n.log2) (bottom : -1074 ≤ e) :
    UnpackedFloat.round Format.binary64 sign n e
      = roundWithAccuracy Format.binary64 sign n e .exact := by
  have amount : (e - Format.binary64.targetExponent (totalExponent n e)).toNat = 0 := by
    rw [totalExponent, targetExponent_eq (by omega)]
    omega
  simp only [UnpackedFloat.round, decreaseExponent, amount]
  simp

theorem add_finite {m M : Nat} {e E : Int} (positive : 0 < m) (positiveToo : 0 < M) :
    UnpackedFloat.add Format.binary64 (.finite .positive m e positive)
        (.finite .positive M E positiveToo)
      = normalize Format.binary64 (((m <<< (e - min e E).toNat : Nat) : Int)
          + ((M <<< (E - min e E).toNat : Nat) : Int)) (min e E) .positive := rfl

/-- The sum of two doubles is the sum of their mantissas at the lower exponent, rounded. -/
theorem unpack_add (left : Digits x.toModel.unpack m e) (right : Digits y.toModel.unpack M E) :
    (x + y).toModel.unpack = (Float.Model.pack (roundWithAccuracy Format.binary64 .positive
      (m * 2 ^ (e - min e E).toNat + M * 2 ^ (E - min e E).toNat) (min e E) .exact)).unpack := by
  have bottom := (toBits_of_digits left).2.2
  have bottomRight := (toBits_of_digits right).2.2
  have wide := log2_lowered left (e - min e E).toNat (M * 2 ^ (E - min e E).toNat)
  obtain ⟨⟨_, same⟩, -, -⟩ := left
  obtain ⟨⟨_, sameRight⟩, -, -⟩ := right
  show (Float.Model.pack (UnpackedFloat.add Format.binary64 _ _)).unpack = _
  rw [same, sameRight, add_finite, Nat.shiftLeft_eq, Nat.shiftLeft_eq, ← Nat.cast_add]
  generalize m * 2 ^ (e - min e E).toNat + M * 2 ^ (E - min e E).toNat = n at wide ⊢
  have positive : n ≠ 0 := by
    rintro rfl
    simp at wide
  rw [UnpackedFloat.normalize, Int.compare_eq_gt.2 (by omega)]
  simp only [Int.toNat_natCast, round_eq .positive wide (le_min bottom bottomRight)]

theorem value_bounds_of_log2 {n k : Nat} (width : n.log2 = 52 + k) (e : Int) :
    (2 : ℚ) ^ (52 + (e + k)) ≤ n * 2 ^ e ∧ (n : ℚ) * 2 ^ e < 2 ^ (53 + (e + k)) := by
  have nonzero : n ≠ 0 := by
    rintro rfl
    simp at width
    omega
  obtain ⟨low, high⟩ := (Nat.log2_eq_iff nonzero).1 width
  have lowCast : (2 : ℚ) ^ (52 + k) ≤ n := by exact_mod_cast low
  have highCast : (n : ℚ) < 2 ^ (53 + k) := by
    rw [(by ring : 53 + k = 52 + k + 1)]
    exact_mod_cast high
  have split (a : Nat) : (2 : ℚ) ^ ((a : Int) + (e + k)) = 2 ^ (a + k) * 2 ^ e := by
    rw [← zpow_natCast, ← zpow_add₀ two_ne_zero]
    congr 1
    push_cast
    ring
  have scale : (0 : ℚ) < 2 ^ e := by positivity
  exact ⟨(split 52).trans_le (mul_le_mul_of_nonneg_right lowCast scale.le),
    (mul_lt_mul_of_pos_right highCast scale).trans_eq (split 53).symm⟩

/-- A number of 53 digits or more keeps as many where it is rounded. -/
theorem le_of_near {v : ℚ} {T : Int} {r : Nat} (low : (2 : ℚ) ^ (52 + T) ≤ v)
    (near : |(r : ℚ) - v / 2 ^ T| ≤ 1 / 2) : (2 : ℚ) ^ 52 ≤ r := by
  have least : (2 : ℚ) ^ 52 ≤ v / 2 ^ T := by
    rw [le_div_iff₀ (by positivity)]
    exact (zpow_add₀ two_ne_zero 52 T).symm.trans_le low
  have : (2 : ℚ) ^ 52 < r + 1 := by linarith [(abs_le.1 near).1]
  exact_mod_cast Nat.lt_succ_iff.1 (by exact_mod_cast this)

/-- A sum of two numbers has one digit more than the longer one at most. -/
theorem exponent_le_of_sum {T top : Int} (left : Digits x.toModel.unpack m e)
    (right : Digits y.toModel.unpack M E) (leftTop : e ≤ top) (rightTop : E ≤ top)
    (least : (2 : ℚ) ^ (52 + T) ≤ m * 2 ^ e + M * 2 ^ E) : T ≤ top + 1 := by
  have bound := left.value_bounds.2.trans_le (zpow_le_zpow_right₀ one_le_two
    (by omega : 53 + e ≤ 53 + top))
  have boundRight := right.value_bounds.2.trans_le (zpow_le_zpow_right₀ one_le_two
    (by omega : 53 + E ≤ 53 + top))
  have both : (2 : ℚ) ^ (52 + T) < 2 ^ (53 + top + 1) := by
    rw [zpow_add_one₀ two_ne_zero]
    linarith
  have := lt_of_two_zpow_lt both
  omega

/-- Rounding a whole number of units: the mantissa shifted to 53 digits, half a unit off at most. -/
theorem digits_rounded {n : Nat} {e : Int} (wide : 52 ≤ n.log2) (bottom : -1074 ≤ e) :
    ∃ R F T, ∃ r : Nat, Digits (roundWithAccuracy Format.binary64 .positive n e .exact) R F ∧
      e ≤ T ∧ T ≤ F ∧ F ≤ T + 1 ∧ (R : ℚ) * 2 ^ F = r * 2 ^ T ∧
      |(r : ℚ) - n * 2 ^ e / 2 ^ T| ≤ 1 / 2 ∧
      (2 : ℚ) ^ (52 + T) ≤ n * 2 ^ e ∧ (n : ℚ) * 2 ^ e < 2 ^ (53 + T) := by
  obtain ⟨k, width⟩ : ∃ k, n.log2 = 52 + k := ⟨n.log2 - 52, by omega⟩
  obtain ⟨R, F, r, digits, low, high, value, near⟩ :=
    digits_roundWithAccuracy (e := e) (stands_exact n) width (by omega)
  obtain ⟨least, most⟩ := value_bounds_of_log2 width e
  have shifted : (n : ℚ) / 2 ^ k = n * 2 ^ e / 2 ^ (e + k) := by
    rw [zpow_add₀ two_ne_zero, zpow_natCast]
    field_simp
  rw [shifted] at near
  exact ⟨R, F, e + k, r, digits, by omega, low, high, value, near, least, most⟩

/-- The sum of two doubles, unless it is very large, is again one of 53 digits, and off by half a
    unit in the last place at most. -/
theorem digits_add {top : Int} (left : Digits x.toModel.unpack m e)
    (right : Digits y.toModel.unpack M E) (leftTop : e ≤ top) (rightTop : E ≤ top)
    (bounded : top ≤ 900) :
    ∃ R F T, ∃ r : Nat, Digits (x + y).toModel.unpack R F ∧ T ≤ F ∧ F ≤ T + 1 ∧ T ≤ top + 1 ∧
      (R : ℚ) * 2 ^ F = r * 2 ^ T ∧ |(r : ℚ) - (m * 2 ^ e + M * 2 ^ E) / 2 ^ T| ≤ 1 / 2 ∧
      (2 : ℚ) ^ (52 + T) ≤ m * 2 ^ e + M * 2 ^ E ∧
      (m : ℚ) * 2 ^ e + M * 2 ^ E < 2 ^ (53 + T) := by
  have bottom := (toBits_of_digits left).2.2
  have bottomRight := (toBits_of_digits right).2.2
  have total : ((m * 2 ^ (e - min e E).toNat + M * 2 ^ (E - min e E).toNat : Nat) : ℚ)
      * 2 ^ min e E = m * 2 ^ e + M * 2 ^ E := by
    rw [Nat.cast_add, add_mul, value_lowered m (min_le_left e E), value_lowered M (min_le_right e E)]
  have wide := log2_lowered left (e - min e E).toNat (M * 2 ^ (E - min e E).toNat)
  rw [unpack_add left right]
  -- At the lower exponent the sum is exact, and rounding it is all that can go wrong.
  generalize m * 2 ^ (e - min e E).toNat + M * 2 ^ (E - min e E).toNat = n at total wide ⊢
  obtain ⟨R, F, T, r, digits, lowest, low, high, value, near, least, most⟩ :=
    digits_rounded (e := min e E) wide (by omega)
  rw [total] at near least most
  have atMost := exponent_le_of_sum left right leftTop rightTop least
  exact ⟨R, F, T, r, digits.unpack_pack (by omega) (by omega), low, high, atMost, value, near,
    least, most⟩

theorem Digits.repack (digits : Digits x.toModel.unpack m e) (top : e ≤ 971)
    (same : y.toModel = Float.Model.pack x.toModel.unpack) : Digits y.toModel.unpack m e := by
  rw [same]
  exact digits.unpack_pack (toBits_of_digits digits).2.2 top

theorem digits_zero_add (digits : Digits y.toModel.unpack M E) (top : E ≤ 971) :
    Digits (0 + y).toModel.unpack M E := by
  refine digits.repack top ?_
  obtain ⟨⟨_, shape⟩, -, -⟩ := digits
  show Float.Model.pack (UnpackedFloat.add Format.binary64 _ _) = _
  rw [shape]
  rfl

theorem digits_add_zero (digits : Digits x.toModel.unpack m e) (top : e ≤ 971) :
    Digits (x + 0).toModel.unpack m e := by
  refine digits.repack top ?_
  obtain ⟨⟨_, shape⟩, -, -⟩ := digits
  show Float.Model.pack (UnpackedFloat.add Format.binary64 _ _) = _
  rw [shape]
  rfl

end Sums

/-! ## Counting units -/

/-- A number estimates a count of units of `2 ^ p`: exactly if there are less than `2 ^ 53`, and
    with no less than that many otherwise. -/
structure Estimates (v : ℚ) (units : Nat) (p : Int) : Prop where
  exact : units < 2 ^ 53 → v = units * 2 ^ p
  atLeast : 2 ^ 53 ≤ units → 2 ^ (53 + p) ≤ v

namespace Estimates

variable {v w : ℚ} {a b : Nat} {p : Int}

theorem units_lt {a : Nat} (small : a < 2 ^ 53) (p : Int) : (a : ℚ) * 2 ^ p < 2 ^ (53 + p) := by
  have cast : (a : ℚ) < 2 ^ (53 : Int) := by exact_mod_cast small
  rw [zpow_add₀ two_ne_zero]
  gcongr

theorem le_units {a : Nat} (large : 2 ^ 53 ≤ a) (p : Int) : (2 : ℚ) ^ (53 + p) ≤ a * 2 ^ p := by
  have cast : (2 : ℚ) ^ (53 : Int) ≤ a := by exact_mod_cast large
  rw [zpow_add₀ two_ne_zero]
  gcongr

theorem nonneg (estimates : Estimates v a p) : 0 ≤ v := by
  rcases Nat.lt_or_ge a (2 ^ 53) with small | large
  · rw [estimates.exact small]
    positivity
  · exact le_trans (by positivity) (estimates.atLeast large)

theorem unit_le (estimates : Estimates v a p) (positive : 0 < v) : (2 : ℚ) ^ p ≤ v := by
  have scale : (0 : ℚ) < 2 ^ p := by positivity
  rcases Nat.lt_or_ge a (2 ^ 53) with small | large
  · rw [estimates.exact small] at positive ⊢
    have some : 1 ≤ a := by exact_mod_cast pos_of_mul_pos_left positive scale.le
    exact le_mul_of_one_le_left scale.le (by exact_mod_cast some)
  · exact (zpow_le_zpow_right₀ one_le_two (by omega)).trans (estimates.atLeast large)

/-- Counts are told apart if one of them is exact. -/
theorem le_iff (left : Estimates v a p) (right : Estimates w b p)
    (small : a < 2 ^ 53 ∨ b < 2 ^ 53) : v ≤ w ↔ a ≤ b := by
  have scale : (0 : ℚ) < 2 ^ p := by positivity
  rcases Nat.lt_or_ge a (2 ^ 53) with leftSmall | leftLarge <;>
    rcases Nat.lt_or_ge b (2 ^ 53) with rightSmall | rightLarge
  · rw [left.exact leftSmall, right.exact rightSmall, mul_le_mul_iff_of_pos_right scale,
      Nat.cast_le]
  · have less := (units_lt leftSmall p).trans_le (right.atLeast rightLarge)
    rw [← left.exact leftSmall] at less
    exact ⟨fun _ => by omega, fun _ => less.le⟩
  · have more := (units_lt rightSmall p).trans_le (left.atLeast leftLarge)
    rw [← right.exact rightSmall] at more
    exact ⟨fun order => absurd more order.not_gt, fun order => by omega⟩
  · omega

theorem add (left : Estimates v a p) (right : Estimates w b p) : Estimates (v + w) (a + b) p := by
  constructor
  · intro small
    rw [left.exact (by omega), right.exact (by omega), Nat.cast_add, add_mul]
  · intro large
    rcases Nat.lt_or_ge a (2 ^ 53) with leftSmall | leftLarge
    · rcases Nat.lt_or_ge b (2 ^ 53) with rightSmall | rightLarge
      · rw [left.exact leftSmall, right.exact rightSmall, ← add_mul, ← Nat.cast_add]
        exact le_units large p
      · exact (right.atLeast rightLarge).trans (le_add_of_nonneg_left left.nonneg)
    · exact (left.atLeast leftLarge).trans (le_add_of_nonneg_right right.nonneg)

theorem scale (estimates : Estimates v a p) (q : Int) : Estimates (v * 2 ^ q) a (p + q) := by
  constructor
  · intro small
    rw [estimates.exact small, zpow_add₀ two_ne_zero]
    ring
  · intro large
    rw [← add_assoc, zpow_add₀ two_ne_zero (53 + p)]
    gcongr
    exact estimates.atLeast large

/-- Two units of half the size for each. -/
theorem finer (estimates : Estimates v a (p + 1)) : Estimates v (2 * a) p := by
  have halved : (a : ℚ) * 2 ^ (p + 1) = ((2 * a : Nat) : ℚ) * 2 ^ p := by
    rw [zpow_add_one₀ two_ne_zero]
    push_cast
    ring
  constructor
  · intro small
    rw [estimates.exact (by omega), halved]
  · intro large
    rcases Nat.lt_or_ge a (2 ^ 53) with still | more
    · rw [estimates.exact still, halved]
      exact le_units large p
    · exact (zpow_le_zpow_right₀ one_le_two (by omega)).trans (estimates.atLeast more)

/-- Rounding to 53 digits loses nothing below `2 ^ 53` units, and it does not get below. -/
theorem round {T : Int} {r : Nat} (estimates : Estimates v a p) (low : (2 : ℚ) ^ (52 + T) ≤ v)
    (high : v < 2 ^ (53 + T)) (near : |(r : ℚ) - v / 2 ^ T| ≤ 1 / 2) :
    Estimates (r * 2 ^ T) a p := by
  have unit : (0 : ℚ) < 2 ^ T := by positivity
  constructor
  · -- An exact count is a multiple of the unit it is rounded at, so nothing is nearer than itself.
    intro small
    have below : T ≤ p := by
      have := lt_of_two_zpow_lt (low.trans_lt (estimates.exact small ▸ units_lt small p))
      omega
    rw [estimates.exact small, ← value_lowered a below, mul_div_cancel_right₀ _ unit.ne'] at near
    rw [eq_of_near near, value_lowered a below]
  · intro large
    have above : p + 1 ≤ T := by
      have := lt_of_two_zpow_lt ((estimates.atLeast large).trans_lt high)
      omega
    have full := le_of_near low near
    calc (2 : ℚ) ^ (53 + p) ≤ 2 ^ (52 + T) := zpow_le_zpow_right₀ one_le_two (by omega)
      _ = 2 ^ 52 * 2 ^ T := by rw [zpow_add₀ two_ne_zero]; norm_cast
      _ ≤ r * 2 ^ T := by gcongr

end Estimates

/-- A double counts units of `2 ^ p`, and its exponent is at most `top`. -/
def Counts (x : Float) (units : Nat) (p top : Int) : Prop :=
  ∃ v, Worth x v top ∧ Estimates v units p

section Counts

variable {c x y : Float} {a b : Nat} {p q top : Int}

theorem Counts.orderKey_le_iff (left : Counts x a p top) (right : Counts y b p q)
    (small : a < 2 ^ 53 ∨ b < 2 ^ 53) : Decimal.orderKey x ≤ Decimal.orderKey y ↔ a ≤ b := by
  obtain ⟨v, worth, estimates⟩ := left
  obtain ⟨w, others, otherEstimates⟩ := right
  rw [worth.orderKey_le_iff others, estimates.le_iff otherEstimates small]

theorem Counts.finer (counts : Counts x a (p + 1) top) : Counts x (2 * a) p top := by
  obtain ⟨v, worth, estimates⟩ := counts
  exact ⟨v, worth, estimates.finer⟩

theorem Counts.mono (counts : Counts x a p q) (below : q ≤ top) : Counts x a p top := by
  obtain ⟨v, worth, estimates⟩ := counts
  refine ⟨v, worth.imp_right ?_, estimates⟩
  rintro ⟨m, e, digits, high, value⟩
  exact ⟨m, e, digits, high.trans below, value⟩

theorem Counts.add (left : Counts x a p top) (right : Counts y b p top) (bounded : top ≤ 900) :
    Counts (x + y) (a + b) p (top + 2) := by
  obtain ⟨v, worth, estimates⟩ := left
  obtain ⟨w, others, otherEstimates⟩ := right
  have sum := estimates.add otherEstimates
  rcases worth with ⟨rfl, rfl⟩ | ⟨m, e, digits, high, rfl⟩ <;>
    rcases others with ⟨rfl, rfl⟩ | ⟨M, E, otherDigits, otherHigh, rfl⟩
  · exact ⟨0 + 0, .inl ⟨rfl, add_zero 0⟩, sum⟩
  · have result := digits_zero_add otherDigits (by omega)
    exact ⟨_, .inr ⟨M, E, result, by omega, (zero_add _).symm⟩, sum⟩
  · have result := digits_add_zero digits (by omega)
    exact ⟨_, .inr ⟨m, e, result, by omega, (add_zero _).symm⟩, sum⟩
  · obtain ⟨R, F, T, r, result, -, above, below, value, near, least, most⟩ :=
      digits_add digits otherDigits high otherHigh bounded
    exact ⟨r * 2 ^ T, .inr ⟨R, F, result, by omega, value⟩, sum.round least most near⟩

theorem digits_two_pow_mul {m : Nat} {e : Int}
    (power : c.toModel.unpack = .finite .positive (2 ^ 52) (q - 52) (by decide))
    (digits : Digits x.toModel.unpack m e) (bottom : -1074 ≤ e + q) (top : e + q ≤ 970) :
    ∃ M E, Digits (c * x).toModel.unpack M E ∧ E ≤ e + q + 1 ∧
      (M : ℚ) * 2 ^ E = m * 2 ^ e * 2 ^ q := by
  have shape : (c * x).toModel.unpack = (Float.Model.pack
      (roundWithAccuracy Format.binary64 .positive (m * 2 ^ 52) (e + (q - 52)) .exact)).unpack := by
    obtain ⟨⟨_, same⟩, -, -⟩ := digits
    show (Float.Model.pack (UnpackedFloat.mul Format.binary64 _ _)).unpack = _
    rw [power, same, mul_comm m, add_comm e]
    rfl
  obtain ⟨M, E, result, -, high, value⟩ := digits_of_product digits bottom top shape
  refine ⟨M, E, result, high, ?_⟩
  rw [value, zpow_add₀ two_ne_zero, mul_assoc]

theorem Counts.scale (counts : Counts x a p top)
    (power : c.toModel.unpack = .finite .positive (2 ^ 52) (q - 52) (by decide))
    (bottom : -1000 ≤ p + q) (bounded : top + q ≤ 900) :
    Counts (c * x) a (p + q) (top + q + 1) := by
  obtain ⟨v, worth, estimates⟩ := counts
  have scaled := estimates.scale q
  rcases worth with ⟨rfl, rfl⟩ | ⟨m, e, digits, high, rfl⟩
  · have zero : c * 0 = 0 := by
      show Float.ofModel (Float.Model.pack (UnpackedFloat.mul Format.binary64 _ _)) = 0
      rw [power]
      rfl
    exact ⟨_, .inl ⟨zero, zero_mul _⟩, scaled⟩
  · have positive := Reads.pos ⟨m, e, digits, rfl⟩
    have low := lt_of_two_zpow_lt ((estimates.unit_le positive).trans_lt digits.value_bounds.2)
    obtain ⟨M, E, result, above, value⟩ := digits_two_pow_mul power digits (by omega) (by omega)
    exact ⟨_, .inr ⟨M, E, result, by omega, value⟩, scaled⟩

theorem counts_ofNat {n : Nat} (fits : n < 2 ^ 64) : Counts (Float.ofNat n) n 0 12 := by
  rcases Nat.eq_zero_or_pos n with rfl | positive
  · exact ⟨0, .inl ⟨rfl, rfl⟩, by simp, by simp⟩
  · rcases Nat.lt_or_ge n (2 ^ 53) with small | large
    · obtain ⟨m, e, digits, -, high, value⟩ := digits_ofNat_small positive small
      exact ⟨n, .inr ⟨m, e, digits, high, value⟩, fun _ => by simp, fun large => by omega⟩
    · obtain ⟨m, e, digits, low, high⟩ := digits_ofNat_large large fits
      refine ⟨m * 2 ^ e, .inr ⟨m, e, digits, high, rfl⟩, fun small => by omega, fun _ => ?_⟩
      exact (zpow_le_zpow_right₀ one_le_two (by omega)).trans digits.value_bounds.1

end Counts

end Double

/-! ## Severities -/

namespace Delta

open Double

def halves (d : Delta) : Nat :=
  4 * d.complexity.natAbs + 2 * d.fanOut.natAbs + 2 * d.crossFanOut.natAbs + d.fanIn.natAbs

/-- Every change that counts has a size among the words. -/
def HasSizes (d : Delta) : Prop :=
  ∀ change ∈ [d.complexity, d.fanOut, d.crossFanOut, d.fanIn], change.natAbs < 2 ^ 63

theorem counts_size {change : Int} (fits : change.natAbs < 2 ^ 63) :
    Counts (size change) change.natAbs 0 12 := by
  have word : Int.bmod change.natAbs (bitRange 64) = (change.natAbs : Int) := by
    have range : bitRange 64 = 2 ^ 64 := rfl
    rw [range]
    refine Int.bmod_eq_of_le ?_ ?_ <;> omega
  rw [size, word]
  exact counts_ofNat (by omega)

theorem counts_severity {d : Delta} (sizes : d.HasSizes) :
    Counts d.severity d.halves (-1) 20 := by
  have complexity : Counts (2.0 * size d.complexity) (2 * (2 * d.complexity.natAbs)) (-1) 14 :=
    ((counts_size (sizes _ (by simp))).scale (q := 1) rfl (by decide) (by decide)).finer.finer
  have fanOut : Counts (size d.fanOut) (2 * d.fanOut.natAbs) (-1) 12 :=
    (counts_size (sizes _ (by simp))).finer
  have crossFanOut : Counts (size d.crossFanOut) (2 * d.crossFanOut.natAbs) (-1) 12 :=
    (counts_size (sizes _ (by simp))).finer
  have fanIn : Counts (0.5 * size d.fanIn) d.fanIn.natAbs (-1) 12 :=
    (counts_size (sizes _ (by simp))).scale (q := -1) rfl (by decide) (by decide)
  have sum := ((complexity.add (fanOut.mono (by decide)) (by decide)).add
    (crossFanOut.mono (by decide)) (by decide)).add (fanIn.mono (by decide)) (by decide)
  have total : d.halves = 2 * (2 * d.complexity.natAbs) + 2 * d.fanOut.natAbs
      + 2 * d.crossFanOut.natAbs + d.fanIn.natAbs := by
    rw [halves]
    omega
  rw [total]
  exact sum

end Delta

end LoadBearing
