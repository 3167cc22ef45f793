import SemanticCore.Proofs.Number.Counting

/-!
# One below a large double

Up to `2 ^ 53` a natural number less one is exact. A double above it is even, and one below it there
is no double. From `2 ^ 53` to `2 ^ 54` one below lies half way between two doubles, and the one
with the even significand is taken. Above `2 ^ 54` the double itself is the nearest one.

* `Number.exists_double_significand`: the significand of a double from `2 ^ 53` on.
* `Number.ofNat_sub_one_of_lt`: one below a double from `2 ^ 53` to `2 ^ 54`.
* `Number.ofNat_sub_one_of_ge`: one below a greater double.
-/

namespace SemanticCore

/-! ## Rounding just below an integer -/

theorem floor_eq_of_between {x : Rat} {k : Int} (hLow : (k : Rat) ≤ x) (hHigh : x < k + 1) :
    x.floor = k := by
  apply le_antisymm
  · have hLt : (x.floor : Rat) < ((k + 1 : Int) : Rat) := by
      push_cast
      exact (Rat.floor_le x).trans_lt hHigh
    exact Int.lt_add_one_iff.mp (by exact_mod_cast hLt)
  · exact Rat.le_floor_iff.mpr hLow

theorem roundEven_sub_of_lt (m : Int) {t : Rat} (hPos : 0 < t) (hHalf : t < 1 / 2) :
    roundEven (m - t) = m := by
  have hFloor : ((m : Rat) - t).floor = m - 1 := by
    apply floor_eq_of_between
    · push_cast
      linarith
    · push_cast
      linarith
  have hRest : 1 / 2 < (m : Rat) - t - ((m - 1 : Int) : Rat) := by
    push_cast
    linarith
  simp only [roundEven, hFloor]
  rw [if_neg (not_lt.mpr hRest.le), if_pos hRest]
  omega

/-- Half way between two integers the even one is taken. -/
theorem roundEven_sub_half (m : Int) : roundEven (m - 1 / 2) = m - m % 2 := by
  have hFloor : ((m : Rat) - 1 / 2).floor = m - 1 := by
    apply floor_eq_of_between
    · push_cast
      linarith
    · push_cast
      linarith
  have hRest : (m : Rat) - 1 / 2 - ((m - 1 : Int) : Rat) = 1 / 2 := by
    push_cast
    ring
  simp only [roundEven, hFloor, hRest]
  rw [if_neg (lt_irrefl _), if_neg (lt_irrefl _)]
  omega

namespace Number

variable {q : Rat} {n : Nat}

/-! ## Large numbers -/

theorem leadingBit_eq {k : Nat} (hLow : (2 : Rat) ^ k ≤ q) (hHigh : q < 2 ^ (k + 1)) :
    leadingBit q = k := by
  have hPos : 0 < q := lt_of_lt_of_le (by positivity) hLow
  have hBit := leadingBit_le hPos.ne'
  rw [abs_of_pos hPos] at hBit
  have hPower : (2 : Rat) ^ leadingBit q < 2 ^ ((k : Int) + 1) := by
    refine hBit.trans_lt ?_
    exact_mod_cast hHigh
  have hLt := (zpow_lt_zpow_iff_right₀ (by norm_num)).mp hPower
  have hGe := natCast_le_leadingBit hLow
  omega

theorem le_of_isSmallInteger (h : BinaryFormat.double.isSmallInteger q = true) : q ≤ 2 ^ 53 := by
  simp only [BinaryFormat.isSmallInteger, BinaryFormat.double, Bool.and_eq_true, beq_iff_eq]
    at h
  obtain ⟨hDen, hNum⟩ := h
  have hAbs : q.num.natAbs ≤ 2 ^ 53 := of_decide_eq_true hNum
  have hLe : q.num ≤ 2 ^ 53 := by omega
  rw [← Rat.num_div_den q, hDen, Nat.cast_one, div_one]
  exact_mod_cast hLe

theorem IsDouble.lt_overflow (h : (finite q).IsDouble) (hPos : 0 < q) :
    q < scale 2 BinaryFormat.double.overflow := by
  simp only [IsDouble, ofRat, BinaryFormat.round] at h
  split at h
  · rename_i hSmall
    calc q ≤ 2 ^ (53 : Int) := by exact_mod_cast le_of_isSmallInteger hSmall
      _ < scale 2 BinaryFormat.double.overflow := by
        rw [scale_two]
        exact zpow_lt_zpow_right₀ (by norm_num) (by decide)
  · split at h
    · cases h
    · rename_i hBound
      have hGrid := Number.finite.inj h
      rw [hGrid, magnitude_eq_abs, abs_of_pos hPos, not_le] at hBound
      exact hBound

/-- A large number is rounded on the grid of its spacing. -/
theorem ofRat_eq_grid {k d : Nat} (hLarge : 2 ^ 53 < q)
    (hSpacing : BinaryFormat.double.spacing q = d) (hRound : roundEven (q / 2 ^ d) = k)
    (hBound : (k : Rat) * 2 ^ d < scale 2 BinaryFormat.double.overflow) :
    ofRat q = ofNat (k * 2 ^ d) := by
  have hSmall : ¬ BinaryFormat.double.isSmallInteger q = true :=
    fun h => absurd hLarge (not_lt.mpr (le_of_isSmallInteger h))
  have hStep : scale 2 (BinaryFormat.double.spacing q) = 2 ^ d := by
    rw [hSpacing, scale_two, zpow_natCast]
  have hSign : (0 : Rat) ≤ k * 2 ^ d := mul_nonneg (Nat.cast_nonneg k) (pow_nonneg (by norm_num) d)
  have hFinite :
      ¬ scale 2 BinaryFormat.double.overflow ≤ magnitude (((k : Int) : Rat) * 2 ^ d) := by
    rw [Int.cast_natCast, magnitude_eq_abs, abs_of_nonneg hSign, not_le]
    exact hBound
  simp only [ofRat, BinaryFormat.round, hSmall, hStep, hRound, hFinite, if_false,
    Bool.false_eq_true]
  rw [ofNat, ofInt]
  push_cast
  rfl

/-- A double from `2 ^ 53` on is a multiple of a power of two, with 53 digits before it. -/
theorem exists_double_significand (h : (ofNat n).IsDouble) (hLarge : 2 ^ 53 ≤ n) :
    ∃ m d, n = m * 2 ^ (d + 1) ∧ 2 ^ 52 ≤ m ∧ m < 2 ^ 53 := by
  have hCast : (2 : Rat) ^ 53 ≤ (n : Rat) := by exact_mod_cast hLarge
  have hPos : (0 : Rat) < n := lt_of_lt_of_le (by norm_num) hCast
  have hBit := natCast_le_leadingBit hCast
  have hDouble : (finite (n : Rat)).IsDouble := by
    rw [ofNat, ofInt, Int.cast_natCast] at h
    exact h
  obtain ⟨m, hm⟩ := hDouble.exists_significand hPos
  have hSpacing := spacing_double (n : Rat)
  obtain ⟨d, hd⟩ : ∃ d : Nat, BinaryFormat.double.spacing (n : Rat) = (d + 1 : Nat) :=
    ⟨(leadingBit (n : Rat) - 53).toNat, by omega⟩
  have hValue := hm.value
  rw [hd, zpow_natCast] at hValue
  exact ⟨m, d, by exact_mod_cast hValue, hm.full (by omega), hm.lt⟩

/-! ## One below -/

section Pred

variable {m d : Nat} (hLow : 2 ^ 52 < m) (hHigh : m < 2 ^ 53)

include hLow hHigh

theorem spacing_pred :
    BinaryFormat.double.spacing ((m : Rat) * 2 ^ (d + 1) - 1) = (d + 1 : Nat) := by
  have hStep : (1 : Rat) ≤ 2 ^ (d + 1) := one_le_pow₀ (by norm_num)
  have hLow' : (2 : Rat) ^ 52 + 1 ≤ m := by exact_mod_cast hLow
  have hHigh' : (m : Rat) < 2 ^ 53 := by exact_mod_cast hHigh
  have hBit : leadingBit ((m : Rat) * 2 ^ (d + 1) - 1) = (53 + d : Nat) := by
    refine leadingBit_eq ?_ ?_
    · calc (2 : Rat) ^ (53 + d) = 2 ^ 52 * 2 ^ (d + 1) := by ring
        _ ≤ m * 2 ^ (d + 1) - 1 := by nlinarith
    · calc (m : Rat) * 2 ^ (d + 1) - 1 < 2 ^ 53 * 2 ^ (d + 1) := by nlinarith
        _ = 2 ^ (53 + d + 1) := by ring
  rw [spacing_double, hBit]
  omega

/-- What one below a double is rounded to, if its significand is `k`. -/
theorem ofNat_sub_one_of_round {k : Nat} (hDouble : (ofNat (m * 2 ^ (d + 1))).IsDouble) (hk : k ≤ m)
    (hRound : roundEven (m - 1 / 2 ^ (d + 1)) = k) :
    ofNat (m * 2 ^ (d + 1)) - 1 = ofNat (k * 2 ^ (d + 1)) := by
  have hStep : (2 : Rat) ≤ 2 ^ (d + 1) := by
    calc (2 : Rat) = 2 ^ 1 := (pow_one 2).symm
      _ ≤ 2 ^ (d + 1) := pow_le_pow_right₀ (by norm_num) (by omega)
  have hLow' : (2 : Rat) ^ 52 + 1 ≤ m := by exact_mod_cast hLow
  have hPred : ofNat (m * 2 ^ (d + 1)) - 1 = ofRat ((m : Rat) * 2 ^ (d + 1) - 1) := by
    show add (.finite ((m * 2 ^ (d + 1) : Nat) : Int)) (neg (.finite ((1 : Nat) : Int))) = _
    rw [neg, add]
    push_cast
    rw [← sub_eq_add_neg]
  have hTop : (m : Rat) * 2 ^ (d + 1) < scale 2 BinaryFormat.double.overflow := by
    have hFinite : (finite ((m : Rat) * 2 ^ (d + 1))).IsDouble := by
      rw [ofNat, ofInt] at hDouble
      push_cast at hDouble
      exact hDouble
    exact hFinite.lt_overflow (by positivity)
  rw [hPred]
  refine ofRat_eq_grid (by nlinarith) (spacing_pred hLow hHigh) ?_ ?_
  · rw [sub_div, mul_div_cancel_right₀ _ (by positivity)]
    exact hRound
  · have hCast : (k : Rat) ≤ m := by exact_mod_cast hk
    exact lt_of_le_of_lt (mul_le_mul_of_nonneg_right hCast (by positivity)) hTop

end Pred

/-- From `2 ^ 53` to `2 ^ 54` the doubles are the even numbers, and one below them those that are
multiples of four are taken. -/
theorem ofNat_sub_one_of_lt (hDouble : (ofNat n).IsDouble) (hLow : 2 ^ 53 < n)
    (hHigh : n < 2 ^ 54) :
    2 ∣ n ∧ ofNat n - 1 = ofNat (n - n % 4) := by
  obtain ⟨m, d, rfl, hm, hm'⟩ := exists_double_significand hDouble hLow.le
  obtain rfl : d = 0 := by
    by_contra hd
    have hStep : 2 ^ 2 ≤ 2 ^ (d + 1) := Nat.pow_le_pow_right (by decide) (by omega)
    have := Nat.mul_le_mul hm hStep
    omega
  have hRound : roundEven ((m : Rat) - 1 / 2 ^ (0 + 1)) = (m - m % 2 : Nat) := by
    have hHalf := roundEven_sub_half m
    rw [Int.cast_natCast] at hHalf
    rw [zero_add, pow_one, hHalf]
    omega
  refine ⟨by omega, ?_⟩
  rw [ofNat_sub_one_of_round (by omega) hm' hDouble (Nat.sub_le _ _) hRound]
  congr 1
  omega

/-- From `2 ^ 54` on the doubles are multiples of four, and one below them is rounded back, if it is
not below a power of two. -/
theorem ofNat_sub_one_of_ge (hDouble : (ofNat n).IsDouble) (hLow : 2 ^ 54 ≤ n)
    (hPower : ∀ k, n ≠ 2 ^ k) : 4 ∣ n ∧ ofNat n - 1 = ofNat n := by
  obtain ⟨m, d, rfl, hm, hm'⟩ := exists_double_significand hDouble (by omega)
  obtain ⟨d, rfl⟩ : ∃ c, d = c + 1 := by
    refine Nat.exists_eq_add_one.mpr (Nat.pos_of_ne_zero ?_)
    rintro rfl
    omega
  have hFull : 2 ^ 52 < m := by
    refine lt_of_le_of_ne hm ?_
    rintro rfl
    exact hPower (52 + (d + 1 + 1)) (pow_add 2 52 (d + 1 + 1)).symm
  have hRound : roundEven ((m : Rat) - 1 / 2 ^ (d + 1 + 1)) = m := by
    have hQuarter : (4 : Rat) ≤ 2 ^ (d + 1 + 1) := by
      calc (4 : Rat) = 2 ^ 2 := by norm_num
        _ ≤ 2 ^ (d + 1 + 1) := pow_le_pow_right₀ (by norm_num) (by omega)
    have hHalf : (1 : Rat) / 2 ^ (d + 1 + 1) < 1 / 2 :=
      one_div_lt_one_div_of_lt (by norm_num) (by linarith)
    have := roundEven_sub_of_lt m (by positivity) hHalf
    rwa [Int.cast_natCast] at this
  refine ⟨⟨m * 2 ^ d, by ring⟩, ?_⟩
  exact ofNat_sub_one_of_round hFull hm' hDouble (Nat.le_refl m) hRound

end Number

end SemanticCore
