import Mathlib.Algebra.Order.Field.Power
import Mathlib.Data.Rat.Floor
import Mathlib.Tactic.Linarith
import Mathlib.Tactic.NormNum
import Mathlib.Tactic.Positivity
import Mathlib.Tactic.Ring
import SemanticCore.Number.Basic

/-!
# The significand of a double

A positive double is `m * 2 ^ e` for a natural number `m < 2 ^ 53`, where `e` is the exponent that
`BinaryFormat.spacing` finds. Unless `e` is the least exponent, `m` has all of its 53 digits.

* `leadingBit_le`, `lt_leadingBit`: what `leadingBit` is.
* `Number.IsDouble`: the numbers that rounding leaves as they are.
* `IsDouble.exists_significand`: the significand of a positive double.
* `Significand.next_le`, `Significand.le_previous`: how far two doubles are apart.
-/

namespace SemanticCore

theorem scale_eq_zpow (b : Nat) (e : Int) : scale b e = (b : Rat) ^ e := by
  unfold scale
  split
  · rename_i hSign
    obtain ⟨n, rfl⟩ := Int.eq_ofNat_of_zero_le hSign
    simp
  · rename_i hSign
    obtain ⟨n, hExp⟩ := Int.eq_ofNat_of_zero_le (Int.le_of_lt (Int.neg_pos.mpr (not_le.mp hSign)))
    obtain rfl : e = -(n : Int) := by omega
    rw [Rat.mkRat_eq_div]
    simp

@[simp]
theorem scale_two (e : Int) : scale 2 e = (2 : Rat) ^ e := scale_eq_zpow _ e

@[simp]
theorem scale_ten (e : Int) : scale 10 e = (10 : Rat) ^ e := scale_eq_zpow _ e

theorem magnitude_eq_abs (q : Rat) : magnitude q = |q| := by
  unfold magnitude
  split
  · rename_i hNeg
    exact (abs_of_neg hNeg).symm
  · rename_i hNeg
    exact (abs_of_nonneg (not_lt.mp hNeg)).symm

/-! ## The leading bit -/

/-- Numerator and denominator bound a rational by two powers of two. -/
theorem abs_bounds {q : Rat} (h : q ≠ 0) :
    (2 : Rat) ^ ((q.num.natAbs.log2 : Int) - q.den.log2 - 1) < |q| ∧
      |q| < (2 : Rat) ^ ((q.num.natAbs.log2 : Int) - q.den.log2 + 1) := by
  have hNum : q.num.natAbs ≠ 0 := by simpa using h
  have hDen : (0 : Rat) < q.den := by exact_mod_cast q.den_pos
  have hAbs : |q| = (q.num.natAbs : Rat) / q.den := by
    conv_lhs => rw [← Rat.num_div_den q]
    rw [abs_div, abs_of_pos hDen, Nat.cast_natAbs, Int.cast_abs]
  have hNumLow : (2 : Rat) ^ (q.num.natAbs.log2 : Int) ≤ q.num.natAbs := by
    exact_mod_cast Nat.log2_self_le hNum
  have hNumHigh : (q.num.natAbs : Rat) < (2 : Rat) ^ ((q.num.natAbs.log2 : Int) + 1) := by
    exact_mod_cast Nat.lt_log2_self
  have hDenLow : (2 : Rat) ^ (q.den.log2 : Int) ≤ q.den := by
    exact_mod_cast Nat.log2_self_le q.den_nz
  have hDenHigh : (q.den : Rat) < (2 : Rat) ^ ((q.den.log2 : Int) + 1) := by
    exact_mod_cast Nat.lt_log2_self
  rw [hAbs, lt_div_iff₀ hDen, div_lt_iff₀ hDen]
  constructor
  · calc (2 : Rat) ^ ((q.num.natAbs.log2 : Int) - q.den.log2 - 1) * q.den
        < 2 ^ ((q.num.natAbs.log2 : Int) - q.den.log2 - 1) * 2 ^ ((q.den.log2 : Int) + 1) :=
          mul_lt_mul_of_pos_left hDenHigh (by positivity)
      _ = 2 ^ (q.num.natAbs.log2 : Int) := by
          rw [← zpow_add₀ (by norm_num)]
          congr 1
          ring
      _ ≤ q.num.natAbs := hNumLow
  · calc (q.num.natAbs : Rat) < 2 ^ ((q.num.natAbs.log2 : Int) + 1) := hNumHigh
      _ = 2 ^ ((q.num.natAbs.log2 : Int) - q.den.log2 + 1) * 2 ^ (q.den.log2 : Int) := by
          rw [← zpow_add₀ (by norm_num)]
          congr 1
          ring
      _ ≤ 2 ^ ((q.num.natAbs.log2 : Int) - q.den.log2 + 1) * q.den :=
          mul_le_mul_of_nonneg_left hDenLow (by positivity)

theorem leadingBit_le {q : Rat} (h : q ≠ 0) : (2 : Rat) ^ leadingBit q ≤ |q| := by
  simp only [leadingBit, scale_two, magnitude_eq_abs]
  split
  · assumption
  · exact (abs_bounds h).1.le

theorem lt_leadingBit {q : Rat} (h : q ≠ 0) : |q| < (2 : Rat) ^ (leadingBit q + 1) := by
  simp only [leadingBit, scale_two, magnitude_eq_abs]
  split
  · exact (abs_bounds h).2
  · rename_i hGuess
    simpa using hGuess

/-! ## Doubles -/

/-- Whether a number is one of double precision: rounding leaves it as it is. -/
def Number.IsDouble : Number → Prop
  | .finite q => Number.ofRat q = .finite q
  | _ => True

theorem roundEven_intCast (k : Int) : roundEven (k : Rat) = k := by
  simp [roundEven]

theorem leadingBit_neg (q : Rat) : leadingBit (-q) = leadingBit q := by
  simp [leadingBit, magnitude_eq_abs]

theorem Number.IsDouble.neg {q : Rat} (h : (Number.finite q).IsDouble) :
    (Number.finite (-q)).IsDouble := by
  have hSmall : BinaryFormat.double.isSmallInteger (-q) = BinaryFormat.double.isSmallInteger q := by
    simp [BinaryFormat.isSmallInteger]
  have hSpacing : BinaryFormat.double.spacing (-q) = BinaryFormat.double.spacing q := by
    simp [BinaryFormat.spacing, leadingBit_neg]
  simp only [IsDouble, Number.ofRat, BinaryFormat.round, hSmall, hSpacing] at h ⊢
  split at h
  · rename_i hInteger
    rw [if_pos hInteger]
  · rename_i hInteger
    rw [if_neg hInteger]
    split at h
    · cases h
    · rename_i hBound
      have hStep : scale 2 (BinaryFormat.double.spacing q) ≠ 0 := by
        rw [scale_two]
        positivity
      have hGrid := Number.finite.inj h
      have hQuot : -q / scale 2 (BinaryFormat.double.spacing q)
          = ((-roundEven (q / scale 2 (BinaryFormat.double.spacing q)) : Int) : Rat) := by
        rw [div_eq_iff hStep]
        push_cast
        linarith
      rw [hGrid, magnitude_eq_abs] at hBound
      have hBack : ((-roundEven (q / scale 2 (BinaryFormat.double.spacing q)) : Int) : Rat)
          * scale 2 (BinaryFormat.double.spacing q) = -q := by
        push_cast
        linarith
      rw [hQuot, roundEven_intCast, hBack, magnitude_eq_abs, abs_neg, if_neg hBound]

/-- A positive rational as a double: `m * 2 ^ e`, with 53 digits unless the exponent is least. -/
structure Significand (q : Rat) (m : Nat) (e : Int) : Prop where
  value : q = m * (2 : Rat) ^ e
  pos : 0 < m
  lt : m < 2 ^ 53
  least : -1074 ≤ e
  full : -1074 < e → 2 ^ 52 ≤ m

theorem spacing_double (q : Rat) :
    BinaryFormat.double.spacing q = max (leadingBit q - 52) (-1074) := rfl

/-- A rational on the grid of its own spacing has a significand. -/
theorem significand_of_grid {q : Rat} (hPos : 0 < q) {k : Int}
    (hGrid : q = k * (2 : Rat) ^ BinaryFormat.double.spacing q) :
    ∃ m, Significand q m (BinaryFormat.double.spacing q) := by
  have hLow := leadingBit_le hPos.ne'
  have hHigh := lt_leadingBit hPos.ne'
  rw [abs_of_pos hPos] at hLow hHigh
  have hSpacing := spacing_double q
  generalize BinaryFormat.double.spacing q = e at hGrid hSpacing ⊢
  have hStep : (0 : Rat) < 2 ^ e := by positivity
  have hk : 0 < k := by
    have : (0 : Rat) < k := pos_of_mul_pos_left (hGrid ▸ hPos) hStep.le
    exact_mod_cast this
  obtain ⟨m, rfl⟩ := Int.eq_ofNat_of_zero_le hk.le
  refine ⟨m, by simpa using hGrid, by omega, ?_, by omega, fun hFull => ?_⟩
  · have : (m : Rat) * 2 ^ e < 2 ^ (53 : Int) * 2 ^ e := by
      calc (m : Rat) * 2 ^ e = q := by simpa using hGrid.symm
        _ < 2 ^ (leadingBit q + 1) := hHigh
        _ ≤ 2 ^ (53 + e) := zpow_le_zpow_right₀ (by norm_num) (by omega)
        _ = 2 ^ (53 : Int) * 2 ^ e := zpow_add₀ (by norm_num) _ _
    exact_mod_cast lt_of_mul_lt_mul_right this hStep.le
  · have : (2 : Rat) ^ (52 : Int) * 2 ^ e ≤ m * 2 ^ e := by
      calc (2 : Rat) ^ (52 : Int) * 2 ^ e = 2 ^ (52 + e) := (zpow_add₀ (by norm_num) _ _).symm
        _ = 2 ^ leadingBit q := by
          congr 1
          omega
        _ ≤ q := hLow
        _ = m * 2 ^ e := by simpa using hGrid
    exact_mod_cast le_of_mul_le_mul_right this hStep

/-- A natural number up to `2 ^ 53` lies on the grid of its spacing. -/
theorem exists_grid_of_natCast {n : Nat} (hPos : 0 < n) (hSmall : n ≤ 2 ^ 53) :
    ∃ k : Int, (n : Rat) = k * (2 : Rat) ^ BinaryFormat.double.spacing n := by
  have hCast : (0 : Rat) < n := by exact_mod_cast hPos
  have hLow := leadingBit_le hCast.ne'
  rw [abs_of_pos hCast] at hLow
  have hSpacing := spacing_double n
  generalize BinaryFormat.double.spacing n = e at hSpacing ⊢
  rcases le_or_gt e 0 with hExp | hExp
  · obtain ⟨d, hd⟩ := Int.eq_ofNat_of_zero_le (Int.neg_nonneg_of_nonpos hExp)
    obtain rfl : e = -(d : Int) := by omega
    refine ⟨n * 2 ^ d, ?_⟩
    push_cast
    rw [zpow_neg, zpow_natCast, mul_assoc, mul_inv_cancel₀ (by positivity), mul_one]
  · -- only `2 ^ 53` itself has more than 53 digits
    have hPower : (2 : Rat) ^ (53 : Int) ≤ n :=
      le_trans (zpow_le_zpow_right₀ (by norm_num) (by omega)) hLow
    have hTop : n = 2 ^ 53 := le_antisymm hSmall (by exact_mod_cast hPower)
    have hBit : leadingBit n ≤ 53 := by
      have hUpper : (2 : Rat) ^ leadingBit n ≤ 2 ^ (53 : Int) :=
        le_trans hLow (by exact_mod_cast hSmall)
      exact (zpow_le_zpow_iff_right₀ (by norm_num)).mp hUpper
    obtain rfl : e = 1 := by omega
    exact ⟨2 ^ 52, by rw [hTop]; norm_num⟩

theorem Number.IsDouble.exists_significand {q : Rat} (h : (Number.finite q).IsDouble)
    (hPos : 0 < q) : ∃ m, Significand q m (BinaryFormat.double.spacing q) := by
  suffices hGrid : ∃ k : Int, q = k * (2 : Rat) ^ BinaryFormat.double.spacing q by
    obtain ⟨k, hk⟩ := hGrid
    exact significand_of_grid hPos hk
  simp only [IsDouble, Number.ofRat, BinaryFormat.round] at h
  split at h
  · rename_i hSmall
    simp only [BinaryFormat.isSmallInteger, Bool.and_eq_true, beq_iff_eq, decide_eq_true_eq]
      at hSmall
    obtain ⟨n, hn⟩ := Int.eq_ofNat_of_zero_le (Rat.num_nonneg.mpr hPos.le)
    obtain rfl : q = (n : Rat) := by
      rw [← Rat.num_div_den q, hn, hSmall.1]
      simp
    exact exists_grid_of_natCast (by exact_mod_cast hPos)
      (by simpa [BinaryFormat.double] using hSmall.2)
  · split at h
    · cases h
    · exact ⟨_, by simpa using (Number.finite.inj h).symm⟩

/-- A number with up to 53 digits on the grid of some exponent is a double. -/
theorem Number.isDouble_of_grid {n : Nat} {e : Int} (hDigits : n < 2 ^ 53) (hLeast : -1074 ≤ e)
    (hMost : e ≤ 971) : (Number.finite (n * (2 : Rat) ^ e)).IsDouble := by
  rcases Nat.eq_zero_or_pos n with rfl | hPos
  · simp [IsDouble, ofRat, BinaryFormat.round, BinaryFormat.isSmallInteger]
  have hCast : (0 : Rat) < n := by exact_mod_cast hPos
  have hValue : (0 : Rat) < n * 2 ^ e := by positivity
  have hTop : n * (2 : Rat) ^ e < 2 ^ (53 + e) := by
    rw [zpow_add₀ (by norm_num)]
    exact mul_lt_mul_of_pos_right (by exact_mod_cast hDigits) (by positivity)
  have hSpacing : BinaryFormat.double.spacing (n * 2 ^ e) ≤ e := by
    have hBit := leadingBit_le hValue.ne'
    rw [abs_of_pos hValue] at hBit
    have hLt := (zpow_lt_zpow_iff_right₀ (by norm_num : (1 : Rat) < 2)).mp (hBit.trans_lt hTop)
    rw [spacing_double]
    omega
  obtain ⟨d, hd⟩ := Int.le.dest hSpacing
  have hStep : (2 : Rat) ^ BinaryFormat.double.spacing (n * 2 ^ e) * 2 ^ d = 2 ^ e := by
    rw [← zpow_natCast, ← zpow_add₀ (by norm_num), hd]
  have hGrid : n * (2 : Rat) ^ e / 2 ^ BinaryFormat.double.spacing (n * 2 ^ e) =
      ((n * 2 ^ d : Int) : Rat) := by
    rw [div_eq_iff (by positivity)]
    push_cast
    rw [mul_assoc, mul_comm (2 ^ d), hStep]
  have hBack : ((n * 2 ^ d : Int) : Rat) * 2 ^ BinaryFormat.double.spacing (n * 2 ^ e) =
      n * 2 ^ e := by
    rw [← hGrid, div_mul_cancel₀ _ (by positivity)]
  have hBound : ¬ (2 : Rat) ^ (BinaryFormat.double.overflow : Int) ≤ n * 2 ^ e := by
    rw [not_le]
    exact hTop.trans_le (zpow_le_zpow_right₀ (by norm_num) (by
      show 53 + e ≤ 1024
      omega))
  simp only [IsDouble, ofRat, BinaryFormat.round, scale_two, hGrid, roundEven_intCast, hBack,
    magnitude_eq_abs, abs_of_pos hValue, hBound, if_false, ite_self]

/-! ## Neighbours -/

namespace Significand

variable {q q' : Rat} {m m' : Nat} {e e' : Int}

/-- The exponents of doubles are ordered as the doubles are. -/
theorem exponent_le (h : Significand q m e) (h' : Significand q' m' e') (hLt : q < q') :
    e ≤ e' := by
  by_contra hExp
  have hFull := h.full (by have := h'.least; omega)
  have : q' ≤ q := by
    calc q' = m' * (2 : Rat) ^ e' := h'.value
      _ ≤ 2 ^ (53 : Int) * 2 ^ e' :=
        mul_le_mul_of_nonneg_right (by exact_mod_cast h'.lt.le) (by positivity)
      _ = 2 ^ (53 + e') := (zpow_add₀ (by norm_num) _ _).symm
      _ ≤ 2 ^ (52 + e) := zpow_le_zpow_right₀ (by norm_num) (by omega)
      _ = 2 ^ (52 : Int) * 2 ^ e := zpow_add₀ (by norm_num) _ _
      _ ≤ m * 2 ^ e := mul_le_mul_of_nonneg_right (by exact_mod_cast hFull) (by positivity)
      _ = q := h.value.symm
  exact absurd hLt (not_lt.mpr this)

/-- A greater double on the grid of a lesser one. -/
theorem value_on_grid (h' : Significand q' m' e') {d : Nat} (hExp : e' = e + d) :
    q' = ((m' * 2 ^ d : Nat) : Rat) * 2 ^ e := by
  rw [h'.value, hExp, zpow_add₀ (by norm_num)]
  push_cast
  rw [zpow_natCast]
  ring

theorem next_le (h : Significand q m e) (h' : Significand q' m' e') (hLt : q < q') :
    q + 2 ^ e ≤ q' := by
  obtain ⟨d, hd⟩ := Int.le.dest (exponent_le h h' hLt)
  have hGrid := h'.value_on_grid hd.symm
  have hStep : (0 : Rat) < 2 ^ e := by positivity
  rw [h.value, hGrid] at hLt ⊢
  have : m < m' * 2 ^ d := by exact_mod_cast lt_of_mul_lt_mul_right hLt hStep.le
  have : ((m + 1 : Nat) : Rat) ≤ ((m' * 2 ^ d : Nat) : Rat) := by exact_mod_cast this
  calc (m : Rat) * 2 ^ e + 2 ^ e = ((m + 1 : Nat) : Rat) * 2 ^ e := by push_cast; ring
    _ ≤ ((m' * 2 ^ d : Nat) : Rat) * 2 ^ e := mul_le_mul_of_nonneg_right this hStep.le

/-- The distance from a double to the one before it: half a step where the exponent changes. -/
def gapBelow (m : Nat) (e : Int) : Rat :=
  if m = 2 ^ 52 ∧ -1074 < e then 2 ^ (e - 1) else 2 ^ e

theorem gapBelow_le (m : Nat) (e : Int) : gapBelow m e ≤ 2 ^ e := by
  unfold gapBelow
  split
  · exact zpow_le_zpow_right₀ (by norm_num) (by omega)
  · exact le_rfl

theorem le_previous (h : Significand q m e) (h' : Significand q' m' e') (hLt : q < q') :
    q + gapBelow m' e' ≤ q' := by
  rcases (exponent_le h h' hLt).eq_or_lt with rfl | hExp
  · exact le_trans (by linarith [gapBelow_le m' e]) (next_le h h' hLt)
  · -- the lesser double is below `2 ^ 52` steps of the grid of the greater one
    have hFull := h'.full (by have := h.least; omega)
    have hTop : ((m + 1 : Nat) : Rat) ≤ 2 ^ (53 : Int) := by exact_mod_cast h.lt
    have hHalf : (2 : Rat) ^ e' = 2 * 2 ^ (e' - 1) := by
      rw [← zpow_one_add₀ (by norm_num)]
      congr 1
      ring
    have hStep : (0 : Rat) < 2 ^ (e' - 1) := by positivity
    have hBelow : q + 2 ^ (e' - 1) ≤ 2 ^ (52 : Int) * 2 ^ e' := by
      calc q + 2 ^ (e' - 1) = m * 2 ^ e + 2 ^ (e' - 1) := by rw [← h.value]
        _ ≤ m * 2 ^ (e' - 1) + 2 ^ (e' - 1) := by
          gcongr
          · norm_num
          · omega
        _ = ((m + 1 : Nat) : Rat) * 2 ^ (e' - 1) := by push_cast; ring
        _ ≤ 2 ^ (53 : Int) * 2 ^ (e' - 1) := mul_le_mul_of_nonneg_right hTop hStep.le
        _ = 2 ^ (52 : Int) * 2 ^ e' := by rw [hHalf]; norm_num; ring
    have hStepLe : (2 : Rat) ^ (52 : Int) * 2 ^ e' ≤ m' * 2 ^ e' :=
      mul_le_mul_of_nonneg_right (by exact_mod_cast hFull) (by positivity)
    rw [h'.value]
    unfold gapBelow
    split
    · exact le_trans hBelow hStepLe
    · rename_i hGap
      have : 2 ^ 52 + 1 ≤ m' := by
        have := h.least
        omega
      have : ((2 ^ 52 + 1 : Nat) : Rat) * 2 ^ e' ≤ m' * 2 ^ e' :=
        mul_le_mul_of_nonneg_right (by exact_mod_cast this) (by positivity)
      push_cast at this
      norm_num at hBelow this ⊢
      linarith

/-- Neighbours whose significands are both even do not exist. -/
theorem odd_of_next_eq (h : Significand q m e) (h' : Significand q' m' e')
    (hNext : q + 2 ^ e = q') (hEven : m % 2 = 0) : m' % 2 = 1 := by
  have hStep : (0 : Rat) < 2 ^ e := by positivity
  obtain ⟨d, hd⟩ := Int.le.dest (exponent_le h h' (by linarith))
  have hGrid := h'.value_on_grid hd.symm
  have hSucc : m + 1 = m' * 2 ^ d := by
    rw [h.value, hGrid] at hNext
    have : ((m + 1 : Nat) : Rat) * 2 ^ e = ((m' * 2 ^ d : Nat) : Rat) * 2 ^ e := by
      rw [← hNext]
      push_cast
      ring
    exact_mod_cast mul_right_cancel₀ hStep.ne' this
  cases d with
  | zero => omega
  | succ d =>
    rw [pow_succ, ← mul_assoc] at hSucc
    omega

end Significand

end SemanticCore
