import SemanticCore.Arena.Basic
import SemanticCore.Proofs.Number.Natural
import SemanticCore.Proofs.Number.Significand
import SemanticCore.Proofs.Number.Word

/-!
# Exact alignment

An arena computes offsets with `alignNat`, the least multiple of the alignment that is not below a
number. Double precision comes to the same as long as the sum of the two stays up to `2 ^ 53`
(`Number.alignUp_ofNat`): a quotient that is no integer is too far from the integer below it to be
rounded to it.
-/

namespace SemanticCore

/-! ## Multiples -/

variable {n m a : Nat}

theorem le_alignNat (n : Nat) (h : 0 < a) : n ≤ alignNat n a := by
  have hDiv := Nat.div_add_mod (n + a - 1) a
  have hMod := Nat.mod_lt (n + a - 1) h
  rw [alignNat, Nat.mul_comm]
  omega

theorem dvd_alignNat (n a : Nat) : a ∣ alignNat n a := Nat.dvd_mul_left a _

theorem alignNat_lt (n : Nat) (h : 0 < a) : alignNat n a < n + a := by
  have hDiv := Nat.div_mul_le_self (n + a - 1) a
  rw [alignNat]
  omega

theorem isLeast_alignNat (n : Nat) (h : 0 < a) :
    IsLeast {k | a ∣ k ∧ n ≤ k} (alignNat n a) := by
  refine ⟨⟨dvd_alignNat n a, le_alignNat n h⟩, ?_⟩
  rintro k ⟨⟨c, rfl⟩, hLe⟩
  have hLt := alignNat_lt n h
  obtain ⟨d, hd⟩ := dvd_alignNat n a
  rw [hd] at hLt ⊢
  have hQuot : d < c + 1 := by
    apply Nat.lt_of_mul_lt_mul_left (a := a)
    rw [Nat.mul_add, Nat.mul_one]
    omega
  exact Nat.mul_le_mul_left a (Nat.lt_succ_iff.mp hQuot)

theorem alignNat_zero (h : 0 < a) : alignNat 0 a = 0 :=
  Nat.le_zero.mp ((isLeast_alignNat 0 h).2 ⟨Nat.dvd_zero a, Nat.le_refl 0⟩)

theorem ceil_div (n : Nat) (h : 0 < a) : ((n : Rat) / a).ceil = ((n + a - 1) / a : Nat) := by
  have hLow := le_alignNat n h
  have hHigh := alignNat_lt n h
  have hPos : (0 : Rat) < a := by exact_mod_cast h
  rw [alignNat] at hLow hHigh
  generalize (n + a - 1) / a = k at hLow hHigh ⊢
  apply le_antisymm
  · rw [Rat.ceil_le_iff, div_le_iff₀ hPos]
    exact_mod_cast hLow
  · rw [← Int.sub_one_lt_iff, Rat.lt_ceil_iff, lt_div_iff₀ hPos]
    have : (k : Rat) * a < n + a := by exact_mod_cast hHigh
    push_cast
    linarith

/-! ## Rounding -/

theorem roundEven_sub_le (x : Rat) : (roundEven x : Rat) - x ≤ 1 / 2 ∧ x - roundEven x ≤ 1 / 2 := by
  have hLow := Rat.floor_le x
  have hHigh := Rat.lt_floor_add_one x
  push_cast at hHigh
  simp only [roundEven]
  split
  · constructor <;> linarith
  · split
    · push_cast
      constructor <;> linarith
    · have hTie : x - x.floor = 1 / 2 := by linarith
      rcases Int.emod_two_eq_zero_or_one x.floor with hBit | hBit
      · rw [hBit]
        push_cast
        constructor <;> linarith
      · rw [hBit]
        push_cast
        constructor <;> linarith

namespace Number

theorem isSmallInteger_natCast (h : n ≤ 2 ^ 53) :
    BinaryFormat.double.isSmallInteger (n : Rat) = true := by
  simp only [BinaryFormat.isSmallInteger, BinaryFormat.double, Rat.den_natCast, Rat.num_natCast,
    Int.natAbs_natCast, beq_self_eq_true, Bool.true_and]
  exact decide_eq_true h

theorem ofRat_natCast (h : n ≤ 2 ^ 53) : ofRat (n : Rat) = .ofNat n := by
  simp only [ofRat, BinaryFormat.round, isSmallInteger_natCast h, if_true]
  rfl

theorem isDouble_ofNat (h : n ≤ 2 ^ 53) : (ofNat n).IsDouble := ofRat_natCast h

section Quotient

variable (hn : 0 < n) (hn' : n < 2 ^ 53) (ha : 0 < a)

include hn hn' ha

theorem spacing_div_nonpos : BinaryFormat.double.spacing ((n : Rat) / a) ≤ 0 := by
  have hPos : (0 : Rat) < (n : Rat) / a := by positivity
  have hBit := leadingBit_le hPos.ne'
  rw [abs_of_pos hPos] at hBit
  have hLe : (n : Rat) / a < 2 ^ (53 : Int) := by
    have hOne : (1 : Rat) ≤ a := by exact_mod_cast ha
    calc (n : Rat) / a ≤ n := div_le_self (by positivity) hOne
      _ < 2 ^ (53 : Int) := by exact_mod_cast hn'
  have hLt := (zpow_lt_zpow_iff_right₀ (by norm_num : (1 : Rat) < 2)).mp (hBit.trans_lt hLe)
  rw [spacing_double]
  omega

/-- Half the distance between neighbours is less than a quotient is away from an integer. -/
theorem spacing_div_lt (ha' : a ≤ 2 ^ 53) :
    (2 : Rat) ^ BinaryFormat.double.spacing ((n : Rat) / a) * a < 2 := by
  have hPos : (0 : Rat) < (n : Rat) / a := by positivity
  have hBit := leadingBit_le hPos.ne'
  rw [abs_of_pos hPos, le_div_iff₀ (by positivity)] at hBit
  have hTop : (n : Rat) < 2 ^ 53 := by exact_mod_cast hn'
  have hTop' : (a : Rat) ≤ 2 ^ 53 := by exact_mod_cast ha'
  rw [spacing_double]
  rcases max_choice (leadingBit ((n : Rat) / a) - 52) (-1074) with hMax | hMax
  · have hDouble : (2 : Rat) * 2 ^ (52 : Int) = 2 ^ 53 := by norm_num
    rw [hMax, zpow_sub₀ (by norm_num), div_mul_eq_mul_div, div_lt_iff₀ (by positivity), hDouble]
    exact hBit.trans_lt hTop
  · have hTiny : (2 : Rat) ^ (-1074 : Int) ≤ 2 ^ (-53 : Int) :=
      zpow_le_zpow_right₀ (by norm_num) (by norm_num)
    rw [hMax]
    calc (2 : Rat) ^ (-1074 : Int) * a ≤ 2 ^ (-53 : Int) * 2 ^ 53 :=
          mul_le_mul hTiny hTop' (by positivity) (by positivity)
      _ < 2 := by norm_num

end Quotient

theorem ceil_eq_of_between {x : Rat} {k : Int} (hLow : (k : Rat) < x) (hHigh : x ≤ k + 1) :
    x.ceil = k + 1 := by
  apply le_antisymm
  · rw [Rat.ceil_le_iff]
    exact_mod_cast hHigh
  · exact Int.add_one_le_iff.mpr (Rat.lt_ceil_iff.mpr hLow)

/-- A rational between two integers stays between them, and off the lower one if it is more than
half a step of the grid away from it. -/
theorem round_between {q : Rat} {k : Int} {d : Nat} (hHigh : q ≤ k + 1)
    (hOff : ((2 : Rat) ^ d)⁻¹ < 2 * (q - k)) :
    (k : Rat) < roundEven (q / (2 ^ d)⁻¹) * (2 ^ d)⁻¹ ∧
      roundEven (q / (2 ^ d)⁻¹) * ((2 : Rat) ^ d)⁻¹ ≤ k + 1 := by
  have hPower : (0 : Rat) < 2 ^ d := by positivity
  rw [div_inv_eq_mul]
  obtain ⟨hUp, hDown⟩ := roundEven_sub_le (q * 2 ^ d)
  constructor
  · rw [← div_eq_mul_inv, lt_div_iff₀ hPower]
    rw [inv_lt_iff_one_lt_mul₀ hPower] at hOff
    by_contra hLe
    linarith
  · rw [← div_eq_mul_inv, div_le_iff₀ hPower]
    have hGrid : (roundEven (q * 2 ^ d) : Rat) < (((k + 1) * 2 ^ d + 1 : Int) : Rat) := by
      have := mul_le_mul_of_nonneg_right hHigh hPower.le
      push_cast
      linarith
    have hInt : roundEven (q * 2 ^ d) ≤ (k + 1) * 2 ^ d :=
      Int.lt_add_one_iff.mp (by exact_mod_cast hGrid)
    exact_mod_cast hInt

/-- A quotient that is not an integer is off the integer below by a part of the divisor. -/
theorem one_le_sub_mul {q : Rat} {k : Nat} (hMul : q * a = n) (hDen : (0 : Rat) < a)
    (hLow : (k : Rat) < q) : 1 ≤ (q - k) * a := by
  have hDiff : (0 : Rat) < (q - k) * a := mul_pos (by linarith) hDen
  have hCast : (q - k) * a = ((n - k * a : Int) : Rat) := by
    push_cast
    rw [sub_mul, hMul]
  rw [hCast] at hDiff ⊢
  exact_mod_cast hDiff

/-- The quotient that is rounded to a double has the same integer above it as the exact one. -/
theorem ceil_ofRat_div (hn : 0 < n) (hn' : n < 2 ^ 53) (ha : 0 < a) (ha' : a ≤ 2 ^ 53) :
    (ofRat ((n : Rat) / a)).ceil = .ofInt ((n : Rat) / a).ceil := by
  have hNonpos := spacing_div_nonpos hn hn' ha
  have hGap := spacing_div_lt hn hn' ha ha'
  have hDen : (0 : Rat) < a := by exact_mod_cast ha
  have hMul : (n : Rat) / a * a = n := div_mul_cancel₀ _ hDen.ne'
  have hLe : (n : Rat) / a ≤ n := div_le_self (by positivity) (by exact_mod_cast ha)
  have hSign : (0 : Rat) ≤ (n : Rat) / a := by positivity
  generalize (n : Rat) / a = q at hNonpos hGap hMul hLe hSign ⊢
  by_cases hSmall : BinaryFormat.double.isSmallInteger q = true
  · simp only [ofRat, BinaryFormat.round, hSmall, if_true]
    rfl
  · obtain ⟨k, hk⟩ := Int.eq_ofNat_of_zero_le (Rat.le_floor_iff.mpr (by simpa using hSign))
    have hFloor := Rat.floor_le q
    have hNext := Rat.lt_floor_add_one q
    rw [hk] at hFloor hNext
    push_cast at hFloor hNext
    have hLow : (k : Rat) < q := by
      refine lt_of_le_of_ne hFloor fun hEq => hSmall ?_
      rw [← hEq] at hLe ⊢
      have hCast : k ≤ n := by exact_mod_cast hLe
      exact isSmallInteger_natCast (by omega)
    have hUnit := one_le_sub_mul hMul hDen hLow
    obtain ⟨d, hd⟩ := Int.eq_ofNat_of_zero_le (Int.neg_nonneg_of_nonpos hNonpos)
    have hStep : scale 2 (BinaryFormat.double.spacing q) = ((2 : Rat) ^ d)⁻¹ := by
      rw [scale_two, ← zpow_natCast, ← zpow_neg, ← hd, neg_neg]
    rw [← scale_two, hStep] at hGap
    have hOff : ((2 : Rat) ^ d)⁻¹ < 2 * (q - (k : Int)) := by
      apply lt_of_mul_lt_mul_right _ hDen.le
      push_cast
      linarith
    obtain ⟨hAbove, hBelow⟩ := round_between (k := k) hNext.le hOff
    have hBound : ¬ scale 2 BinaryFormat.double.overflow ≤
        magnitude (roundEven (q / ((2 : Rat) ^ d)⁻¹) * ((2 : Rat) ^ d)⁻¹) := by
      have hSign' : (0 : Rat) ≤ (k : Int) := by positivity
      have hTop : (n : Rat) + 1 ≤ 2 ^ (54 : Int) := by
        exact_mod_cast (by omega : n + 1 ≤ 2 ^ 54)
      have hOverflow : (2 : Rat) ^ (54 : Int) ≤ scale 2 BinaryFormat.double.overflow := by
        rw [scale_two]
        exact zpow_le_zpow_right₀ (by norm_num) (by decide)
      rw [magnitude_eq_abs, abs_of_pos (by linarith), not_le]
      push_cast at hBelow
      linarith
    simp only [ofRat, BinaryFormat.round, hSmall, hStep, hBound, if_false, Number.ceil,
      Bool.false_eq_true]
    rw [ceil_eq_of_between hAbove hBelow, ceil_eq_of_between (k := k) hLow hNext.le]

/-- The least multiple is found exactly, and only then rounded. -/
theorem alignUp_eq_ofRat (ha : 0 < a) (ha' : a ≤ 2 ^ 53) (hn : n < 2 ^ 53) :
    alignUp (.ofNat n) (.ofNat a) = ofRat (alignNat n a : Nat) := by
  have hDen : (a : Rat) ≠ 0 := by exact_mod_cast ha.ne'
  have hDiv : ofNat n / ofNat a = ofRat ((n : Rat) / a) := by
    show div (.finite (n : Int)) (.finite (a : Int)) = _
    simp only [div, Int.cast_natCast, hDen, if_false]
  have hCeil : (ofNat n / ofNat a).ceil = .ofInt ((n : Rat) / a).ceil := by
    rw [hDiv]
    rcases Nat.eq_zero_or_pos n with rfl | hPos
    · rw [Nat.cast_zero, zero_div, ← Nat.cast_zero, ofRat_natCast (Nat.zero_le _)]
      rfl
    · exact ceil_ofRat_div hPos hn ha ha'
  rw [alignUp, hCeil, ceil_div n ha, alignNat]
  show mul (.finite _) (.finite _) = _
  simp only [mul]
  push_cast
  rfl

/-- Double precision moves a number up to the same multiple as exact arithmetic. -/
theorem alignUp_ofNat (ha : 0 < a) (h : n + a ≤ 2 ^ 53) :
    alignUp (.ofNat n) (.ofNat a) = .ofNat (alignNat n a) := by
  have hLt := alignNat_lt n ha
  rw [alignUp_eq_ofRat ha (by omega) (by omega), ofRat_natCast (by omega)]

theorem ofNat_add (h : n + m ≤ 2 ^ 53) : ofNat n + ofNat m = ofNat (n + m) := by
  have hSum : ((n : Int) : Rat) + ((m : Int) : Rat) = ((n + m : Nat) : Rat) := by push_cast; rfl
  show add (.finite (n : Int)) (.finite (m : Int)) = _
  rw [add, hSum, ofRat_natCast h]

theorem le_ofNat : (ofNat n).le (ofNat m) = decide (n ≤ m) := by
  have hLt : (ofNat n).lt (ofNat m) = decide (n < m) := by
    show decide (((n : Int) : Rat) < ((m : Int) : Rat)) = decide (n < m)
    exact decide_eq_decide.mpr (by exact_mod_cast Iff.rfl)
  have hEq : (ofNat n == ofNat m) = decide (n = m) := by
    rw [beq_eq_decide]
    exact decide_eq_decide.mpr ⟨ofNat_injective, fun h => h ▸ rfl⟩
  have hNan : (ofNat n != .nan) = true := by simp [ofNat, ofInt]
  rw [le, hLt, hEq, hNan, Bool.and_true, ← Bool.decide_or]
  exact decide_eq_decide.mpr Nat.le_iff_lt_or_eq.symm

/-! ## Powers of two -/

theorem ofNat_sub_one (hPos : 0 < n) (h : n ≤ 2 ^ 53) : ofNat n - 1 = ofNat (n - 1) := by
  have hPred : ((n : Int) : Rat) + -(((1 : Nat) : Int) : Rat) = ((n - 1 : Nat) : Rat) := by
    push_cast [Nat.cast_sub (show 1 ≤ n from hPos)]
    ring
  show add (.finite (n : Int)) (neg (.finite ((1 : Nat) : Int))) = _
  rw [neg, add, hPred, ofRat_natCast (by omega)]

theorem and_pred_eq_zero_iff (hPos : 0 < n) : n &&& (n - 1) = 0 ↔ ∃ k, n = 2 ^ k :=
  Nat.and_sub_one_eq_zero_iff_isPowerOfTwo hPos.ne'

theorem bitAnd_of_last_zero (h : n % 2 ^ 32 = 0) (y : Number) : (ofNat n).bitAnd y = 0 := by
  have hWord : (ofNat n).toWord = 0 := by
    rw [toWord_ofNat, h]
    rfl
  rw [bitAnd_eq_zero_iff, hWord, UInt32.zero_and]

/-- Where the predecessor is exact, the test takes the last 32 bits and their predecessor. -/
theorem bitAnd_pred_iff_of_le (hPos : 0 < n % 2 ^ 32) (h : n ≤ 2 ^ 53) :
    (ofNat n).bitAnd (ofNat n - 1) = 0 ↔ ∃ k, n % 2 ^ 32 = 2 ^ k := by
  have hPred : (n - 1) % 2 ^ 32 = n % 2 ^ 32 - 1 := by omega
  rw [ofNat_sub_one (by omega) h, bitAnd_ofNat_eq_zero_iff, hPred, and_pred_eq_zero_iff hPos]

theorem isPowerOfTwo_ofNat_iff :
    (ofNat n).isPowerOfTwo = true ↔ 0 < n ∧ (ofNat n).bitAnd (ofNat n - 1) = 0 := by
  have hInteger : (ofNat n).isInteger = true := by rw [isInteger, ofNat, toInt?_ofInt]; rfl
  have hPos : (0 : Number).lt (ofNat n) = true ↔ 0 < n := by
    show decide ((((0 : Nat) : Int) : Rat) < ((n : Int) : Rat)) = true ↔ _
    rw [decide_eq_true_iff]
    exact_mod_cast Iff.rfl
  rw [isPowerOfTwo, Bool.and_eq_true, Bool.and_eq_true, hPos, beq_iff_eq]
  simp only [hInteger, true_and]

theorem isPowerOfTwo_two_pow (k : Nat) : (ofNat (2 ^ k)).isPowerOfTwo = true := by
  have hPos : 0 < 2 ^ k := Nat.two_pow_pos k
  refine isPowerOfTwo_ofNat_iff.mpr ⟨hPos, ?_⟩
  by_cases hk : k < 32
  · have hLt : 2 ^ k < 2 ^ 32 := Nat.pow_lt_pow_right (by decide) hk
    have hLast : 2 ^ k % 2 ^ 32 = 2 ^ k := Nat.mod_eq_of_lt hLt
    exact (bitAnd_pred_iff_of_le (by omega) (by omega)).mpr ⟨k, hLast⟩
  · have hLast : 2 ^ k % 2 ^ 32 = 0 := Nat.mod_eq_zero_of_dvd (Nat.pow_dvd_pow 2 (by omega))
    exact bitAnd_of_last_zero hLast _

end Number

end SemanticCore
