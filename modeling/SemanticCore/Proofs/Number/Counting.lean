import SemanticCore.Proofs.Arena.Alignment

/-!
# Counting in double precision

Sizes and offsets are natural numbers that are computed in double precision. Below `2 ^ 53` this is
exact, and what has once got to `2 ^ 53` or above is not brought below it again by sums, products,
maxima and alignment. So a result below `2 ^ 53` is the exact one.

* `Number.Counts`: a number and the natural number that it stands for.
* `Number.Counts.add`, `Number.Counts.mul_ofNat`, `Number.Counts.max`, `Number.Counts.alignUp`: the
  computations.
* `Number.Counts.eq_ofNat`: a result below `2 ^ 53`.
-/

namespace SemanticCore

theorem le_roundEven {k : Int} {x : Rat} (h : (k : Rat) ≤ x) : k ≤ roundEven x := by
  have hFloor : k ≤ x.floor := Rat.le_floor_iff.mpr h
  simp only [roundEven]
  split
  · exact hFloor
  · split <;> omega

theorem roundEven_le {k : Int} {x : Rat} (h : x ≤ k) : roundEven x ≤ k := by
  have hFloor : x.floor ≤ k := by exact_mod_cast (Rat.floor_le x).trans h
  have hRest : x.floor = k → x - x.floor = 0 := by
    intro hEq
    have hLe := Rat.floor_le x
    rw [hEq] at hLe ⊢
    linarith
  simp only [roundEven]
  split
  · exact hFloor
  · rename_i hHalf
    have hBelow : x.floor ≠ k := fun hEq => hHalf (by rw [hRest hEq]; norm_num)
    split <;> omega

namespace Number

/-! ## Powers of two are not rounded past -/

theorem le_finite_iff {n : Nat} {q : Rat} :
    (ofNat n).le (.finite q) = true ↔ (n : Rat) ≤ q := by
  have hLt : (ofNat n).lt (.finite q) = decide ((n : Rat) < q) := by
    show decide (((n : Int) : Rat) < q) = _
    rw [Int.cast_natCast]
  have hEq : (ofNat n == .finite q) = decide ((n : Rat) = q) := by
    show decide (Number.finite ((n : Int) : Rat) = .finite q) = _
    simp only [Number.finite.injEq, Int.cast_natCast]
  have hNan : (ofNat n != .nan) = true := by simp [ofNat, ofInt]
  rw [le, hLt, hEq, hNan, Bool.and_true, ← Bool.decide_or, decide_eq_true_iff]
  exact le_iff_lt_or_eq.symm

theorem le_cases {n : Nat} {x : Number} (h : (ofNat n).le x = true) :
    x = .infinity false ∨ ∃ q, x = .finite q ∧ (n : Rat) ≤ q := by
  cases x with
  | nan => cases h
  | infinity negative =>
    cases negative with
    | false => exact Or.inl rfl
    | true => cases h
  | finite q => exact Or.inr ⟨q, rfl, le_finite_iff.mp h⟩

/-- The leading digit of a number is on the grid of its doubles, so rounding does not go below it.
-/
theorem two_pow_leadingBit_le {q : Rat} (hPos : 0 < q) :
    (2 : Rat) ^ leadingBit q
      ≤ roundEven (q / 2 ^ (leadingBit q - 52)) * 2 ^ (leadingBit q - 52) := by
  have hStep : (0 : Rat) < 2 ^ (leadingBit q - 52) := by positivity
  have hSplit : (2 : Rat) ^ leadingBit q = ((2 ^ 52 : Int) : Rat) * 2 ^ (leadingBit q - 52) := by
    have hDigits : ((2 ^ 52 : Int) : Rat) = 2 ^ (52 : Int) := by norm_num
    rw [hDigits, ← zpow_add₀ (by norm_num)]
    congr 1
    ring
  have hLow := leadingBit_le hPos.ne'
  rw [abs_of_pos hPos] at hLow
  have hGrid : (2 ^ 52 : Int) ≤ roundEven (q / 2 ^ (leadingBit q - 52)) := by
    apply le_roundEven
    rw [le_div_iff₀ hStep, ← hSplit]
    exact hLow
  rw [hSplit]
  exact mul_le_mul_of_nonneg_right (by exact_mod_cast hGrid) hStep.le

theorem natCast_le_leadingBit {k : Nat} {q : Rat} (hq : (2 : Rat) ^ k ≤ q) :
    (k : Int) ≤ leadingBit q := by
  have hPos : 0 < q := lt_of_lt_of_le (by positivity) hq
  have hHigh := lt_leadingBit hPos.ne'
  rw [abs_of_pos hPos] at hHigh
  have hPower : (2 : Rat) ^ (k : Int) < 2 ^ (leadingBit q + 1) := by
    rw [zpow_natCast]
    exact hq.trans_lt hHigh
  exact Int.lt_add_one_iff.mp ((zpow_lt_zpow_iff_right₀ (by norm_num)).mp hPower)

/-- A power of two that is not above a number is not above the double next to it either. -/
theorem two_pow_le_ofRat (k : Nat) {q : Rat} (hq : (2 : Rat) ^ k ≤ q) :
    (ofNat (2 ^ k)).le (ofRat q) = true := by
  have hPos : 0 < q := lt_of_lt_of_le (by positivity) hq
  have hBit := natCast_le_leadingBit hq
  have hSpacing : BinaryFormat.double.spacing q = leadingBit q - 52 := by
    rw [spacing_double]
    omega
  have hRounded : (2 : Rat) ^ k
      ≤ roundEven (q / 2 ^ (leadingBit q - 52)) * 2 ^ (leadingBit q - 52) := by
    calc (2 : Rat) ^ k = 2 ^ (k : Int) := (zpow_natCast _ _).symm
      _ ≤ 2 ^ leadingBit q := zpow_le_zpow_right₀ (by norm_num) hBit
      _ ≤ _ := two_pow_leadingBit_le hPos
  simp only [ofRat, BinaryFormat.round, hSpacing, scale_two]
  split
  · rw [le_finite_iff]
    exact_mod_cast hq
  · split
    · rw [decide_eq_false (not_lt.mpr hPos.le)]
      rfl
    · rw [le_finite_iff]
      exact_mod_cast hRounded

/-- A number of at most minus one is not rounded up to zero. -/
theorem toNat?_ofRat_of_neg {q : Rat} (hq : q ≤ -1) : (ofRat q).toNat? = none := by
  have hNeg : q ≠ 0 := by
    rintro rfl
    norm_num at hq
  have hFinite : ∀ r : Rat, r < 0 → (Number.finite r).toNat? = none := by
    intro r hr
    cases hNat : (Number.finite r).toNat? with
    | none => rfl
    | some n =>
      have hEq := Number.finite.inj (eq_ofNat_of_toNat? hNat)
      rw [hEq] at hr
      exact absurd hr (by simp)
  have hStep : (2 : Rat) ^ BinaryFormat.double.spacing q ≤ -q := by
    have hAbs : |q| = -q := abs_of_neg (by linarith)
    have hBit : (0 : Int) ≤ leadingBit q := by
      have hHigh : (2 : Rat) ^ (0 : Int) < 2 ^ (leadingBit q + 1) := by
        rw [zpow_zero]
        exact lt_of_le_of_lt (by linarith) (lt_leadingBit hNeg)
      exact Int.lt_add_one_iff.mp ((zpow_lt_zpow_iff_right₀ (by norm_num)).mp hHigh)
    calc (2 : Rat) ^ BinaryFormat.double.spacing q ≤ 2 ^ leadingBit q :=
          zpow_le_zpow_right₀ (by norm_num) (by rw [spacing_double]; omega)
      _ ≤ |q| := leadingBit_le hNeg
      _ = -q := hAbs
  simp only [ofRat, BinaryFormat.round, scale_two]
  split
  · exact hFinite q (by linarith)
  · split
    · rfl
    · refine hFinite _ (mul_neg_of_neg_of_pos ?_ (by positivity))
      have hQuot : q / (2 : Rat) ^ BinaryFormat.double.spacing q ≤ ((-1 : Int) : Rat) := by
        rw [div_le_iff₀ (by positivity)]
        push_cast
        linarith
      exact_mod_cast lt_of_le_of_lt (roundEven_le hQuot) (by norm_num)

theorem isNegative_ofNat (n : Nat) : (ofNat n).isNegative = false := by
  show decide (((n : Int) : Rat) < 0) = false
  exact decide_eq_false (by simp)

theorem infinity_mul_ofNat {n : Nat} (h : 0 < n) :
    .infinity false * ofNat n = .infinity false := by
  have hCast : ((n : Int) : Rat) ≠ 0 := by exact_mod_cast h.ne'
  have hNe : ¬ (Number.infinity false = .finite 0 ∨ ofNat n = .finite 0) := by
    rintro (hInf | hZero)
    · cases hInf
    · exact hCast (Number.finite.inj hZero)
  have hSign : ((Number.infinity false).isNegative != (ofNat n).isNegative) = false := by
    rw [isNegative_ofNat]
    rfl
  show (if Number.infinity false = .finite 0 ∨ ofNat n = .finite 0 then nan
    else infinity ((Number.infinity false).isNegative != (ofNat n).isNegative)) = _
  rw [if_neg hNe, hSign]

theorem infinity_div_ofNat (n : Nat) : .infinity false / ofNat n = .infinity false := by
  have hSign : decide (((n : Int) : Rat) < 0) = false := isNegative_ofNat n
  show infinity (false != decide (((n : Int) : Rat) < 0)) = _
  rw [hSign]
  rfl

theorem ceil_infinity (negative : Bool) : (infinity negative).ceil = infinity negative := rfl

/-! ## Counting -/

/-- A rational that stands for a natural number: below `2 ^ 53` it is that number, and from there on
it is not below `2 ^ 53` either. -/
structure Tracks (q : Rat) (n : Nat) : Prop where
  exact : n < 2 ^ 53 → q = n
  beyond : 2 ^ 53 ≤ n → 2 ^ 53 ≤ q

/-- A number that stands for a natural number, if need be as positive infinity. -/
inductive Counts : Number → Nat → Prop
  | infinity {n : Nat} (hn : 2 ^ 53 ≤ n) : Counts (.infinity false) n
  | finite {q : Rat} {n : Nat} (h : Tracks q n) : Counts (.finite q) n

namespace Tracks

variable {p q : Rat} {n m : Nat}

theorem natCast (n : Nat) : Tracks n n := ⟨fun _ => rfl, fun hn => by exact_mod_cast hn⟩

/-- What a rational tracks, as far as `2 ^ 53`, is not above it. -/
theorem min_le (h : Tracks q n) : ((min n (2 ^ 53) : Nat) : Rat) ≤ q := by
  rcases lt_or_ge n (2 ^ 53) with hn | hn
  · rw [min_eq_left hn.le, h.exact hn]
  · rw [min_eq_right hn]
    exact_mod_cast h.beyond hn

theorem nonneg (h : Tracks q n) : 0 ≤ q := le_trans (by positivity) h.min_le

theorem of_le (hExact : n < 2 ^ 53 → q = n) (hLe : ((min n (2 ^ 53) : Nat) : Rat) ≤ q) :
    Tracks q n := by
  refine ⟨hExact, fun hn => ?_⟩
  rw [min_eq_right hn] at hLe
  exact_mod_cast hLe

theorem add (hp : Tracks p n) (hq : Tracks q m) : Tracks (p + q) (n + m) := by
  refine of_le (fun hSum => ?_) ?_
  · rw [hp.exact (by omega), hq.exact (by omega), Nat.cast_add]
  · calc ((min (n + m) (2 ^ 53) : Nat) : Rat)
        ≤ ((min n (2 ^ 53) + min m (2 ^ 53) : Nat) : Rat) := by
          exact_mod_cast (by omega : min (n + m) (2 ^ 53) ≤ min n (2 ^ 53) + min m (2 ^ 53))
      _ ≤ p + q := by
          rw [Nat.cast_add]
          exact add_le_add hp.min_le hq.min_le

theorem mul_natCast (hp : Tracks p n) (hm : 0 < m) : Tracks (p * m) (n * m) := by
  have hOne : (1 : Rat) ≤ m := by exact_mod_cast hm
  refine ⟨fun hProduct => ?_, fun hProduct => ?_⟩
  · have hn : n < 2 ^ 53 := lt_of_le_of_lt (Nat.le_mul_of_pos_right n hm) hProduct
    rw [hp.exact hn, Nat.cast_mul]
  · rcases lt_or_ge n (2 ^ 53) with hn | hn
    · rw [hp.exact hn, ← Nat.cast_mul]
      exact_mod_cast hProduct
    · calc (2 : Rat) ^ 53 ≤ p := hp.beyond hn
        _ ≤ p * m := le_mul_of_one_le_right hp.nonneg hOne

theorem max (hp : Tracks p n) (hq : Tracks q m) : Tracks (p ⊔ q) (n ⊔ m) := by
  refine of_le (fun hMax => ?_) ?_
  · rw [hp.exact (by omega), hq.exact (by omega), Nat.cast_max]
  · rw [min_max_distrib_right, Nat.cast_max]
    exact max_le_max hp.min_le hq.min_le

/-- Rounding leaves what is exact as it is, and does not go below `2 ^ 53` from above. -/
theorem counts_ofRat (h : Tracks q n) : Counts (ofRat q) n := by
  rcases lt_or_ge n (2 ^ 53) with hn | hn
  · rw [h.exact hn, ofRat_natCast hn.le]
    refine .finite ?_
    rw [Int.cast_natCast]
    exact natCast n
  · rcases le_cases (two_pow_le_ofRat 53 (h.beyond hn)) with hInf | ⟨r, hr, hLe⟩
    · rw [hInf]
      exact .infinity hn
    · rw [hr]
      exact .finite ⟨fun hn' => absurd hn (not_le.mpr hn'), fun _ => by exact_mod_cast hLe⟩

end Tracks

namespace Counts

variable {x y : Number} {n m a : Nat}

theorem ofNat (n : Nat) : Counts (.ofNat n) n := by
  refine .finite ?_
  rw [Int.cast_natCast]
  exact .natCast n

/-- A difference counts what is left. -/
theorem ofNat_sub (h : m ≤ n) : Counts (.ofNat n - .ofNat m) (n - m) := by
  have hCast : ((n : Int) : Rat) + -((m : Int) : Rat) = ((n - m : Nat) : Rat) := by
    rw [Nat.cast_sub h, Int.cast_natCast, Int.cast_natCast, sub_eq_add_neg]
  have hDifference : Number.ofNat n - .ofNat m = ofRat ((n - m : Nat) : Rat) :=
    congrArg ofRat hCast
  rw [hDifference]
  exact (Tracks.natCast _).counts_ofRat

/-- What is counted is not above the number, as far as `2 ^ 53`. -/
theorem le (h : Counts x n) (hn : m ≤ n) (hm : m ≤ 2 ^ 53) : (Number.ofNat m).le x = true := by
  cases h with
  | infinity => rfl
  | finite h =>
    refine le_finite_iff.mpr (le_trans ?_ h.min_le)
    exact_mod_cast Nat.le_min.mpr ⟨hn, hm⟩

theorem eq_ofNat (h : Counts x n) (hn : n < 2 ^ 53) : x = .ofNat n := by
  cases h with
  | infinity hn' => exact absurd hn (not_lt.mpr hn')
  | finite h => rw [h.exact hn, Number.ofNat, ofInt, Int.cast_natCast]

/-- Only what counts less than `2 ^ 53` is below it. -/
theorem lt_iff (h : Counts x n) : x.lt (.ofNat (2 ^ 53)) = true ↔ n < 2 ^ 53 := by
  have hCompare : ∀ q : Rat, (Number.finite q).lt (.ofNat (2 ^ 53)) = true ↔ q < 2 ^ 53 := by
    intro q
    show decide (q < (((2 ^ 53 : Nat) : Int) : Rat)) = true ↔ _
    rw [decide_eq_true_iff]
    norm_num
  cases h with
  | infinity hn =>
    constructor
    · intro hLt
      cases hLt
    · intro hLt
      exact absurd hn (not_le.mpr hLt)
  | finite h =>
    rw [hCompare]
    constructor
    · intro hLt
      by_contra hn
      exact absurd hLt (not_lt.mpr (h.beyond (not_lt.mp hn)))
    · intro hn
      rw [h.exact hn]
      exact_mod_cast hn

theorem add (hx : Counts x n) (hy : Counts y m) : Counts (x + y) (n + m) := by
  cases hx with
  | infinity hn =>
    have hInf : .infinity false + y = .infinity false := by cases hy <;> rfl
    rw [hInf]
    exact .infinity (by omega)
  | finite hx =>
    cases hy with
    | infinity hm => exact .infinity (n := n + m) (by omega)
    | finite hy => exact (hx.add hy).counts_ofRat

theorem mul_ofNat (hx : Counts x n) (hm : 0 < m) : Counts (x * .ofNat m) (n * m) := by
  cases hx with
  | infinity hn =>
    rw [infinity_mul_ofNat hm]
    exact .infinity (hn.trans (Nat.le_mul_of_pos_right n hm))
  | finite hx =>
    have hProduct := (hx.mul_natCast hm).counts_ofRat
    rw [← Int.cast_natCast] at hProduct
    exact hProduct

theorem max (hx : Counts x n) (hy : Counts y m) : Counts (x.max y) (n ⊔ m) := by
  cases hx with
  | infinity hn =>
    have hInf : (Number.infinity false).max y = .infinity false := by
      cases hy <;> simp [Number.max, lt]
    rw [hInf]
    exact .infinity (hn.trans (Nat.le_max_left n m))
  | @finite p _ hx =>
    cases hy with
    | infinity hm =>
      have hInf : (Number.finite p).max (.infinity false) = .infinity false := by
        simp [Number.max, lt]
      rw [hInf]
      exact .infinity (hm.trans (Nat.le_max_right n m))
    | @finite q _ hy =>
      have hMax : (Number.finite p).max (.finite q) = .finite (p ⊔ q) := by
        rcases lt_or_ge p q with hLt | hGe
        · simp [Number.max, lt, hLt, hLt.le]
        · simp [Number.max, lt, hGe, not_lt.mpr hGe]
      rw [hMax]
      exact .finite (hx.max hy)

/-- A number moved up to a multiple of a power of two. -/
theorem alignUp (hx : Counts x n) {k : Nat} (hk : k ≤ 53) :
    Counts (x.alignUp (.ofNat (2 ^ k))) (alignNat n (2 ^ k)) := by
  have hPos : 0 < 2 ^ k := Nat.two_pow_pos k
  have hLe := le_alignNat n hPos
  cases hx with
  | infinity hn =>
    rw [Number.alignUp, infinity_div_ofNat, ceil_infinity, infinity_mul_ofNat hPos]
    exact .infinity (hn.trans hLe)
  | @finite q _ hx =>
    rcases lt_or_ge n (2 ^ 53) with hn | hn
    · rw [(Counts.finite hx).eq_ofNat hn,
        alignUp_eq_ofRat hPos (Nat.pow_le_pow_right (by decide) hk) hn]
      exact (Tracks.natCast _).counts_ofRat
    · -- the quotient is not below a power of two, and the rounding does not bring it below it
      have hCast : (((2 ^ k : Nat) : Int) : Rat) = 2 ^ k := by norm_num
      have hSplit : (2 : Rat) ^ (53 - k) * 2 ^ k = 2 ^ 53 := by
        rw [← pow_add, Nat.sub_add_cancel hk]
      have hQuot : (2 : Rat) ^ (53 - k) ≤ q / 2 ^ k := by
        rw [le_div_iff₀ (by positivity), hSplit]
        exact hx.beyond hn
      have hDiv : Number.finite q / .ofNat (2 ^ k) = ofRat (q / 2 ^ k) := by
        show div (.finite q) (.finite _) = _
        rw [div, hCast, if_neg (by positivity)]
      rw [Number.alignUp, hDiv]
      rcases le_cases (two_pow_le_ofRat (53 - k) hQuot) with hInf | ⟨r, hr, hLow⟩
      · rw [hInf, ceil_infinity, infinity_mul_ofNat hPos]
        exact .infinity (hn.trans hLe)
      · have hCeil : (2 : Rat) ^ 53 ≤ r.ceil * 2 ^ k := by
          rw [← hSplit]
          refine mul_le_mul_of_nonneg_right ?_ (by positivity)
          calc (2 : Rat) ^ (53 - k) ≤ r := by exact_mod_cast hLow
            _ ≤ r.ceil := Rat.le_ceil
        have hTracks : Tracks (r.ceil * 2 ^ k) (alignNat n (2 ^ k)) :=
          ⟨fun hLt => absurd (hn.trans hLe) (not_le.mpr hLt), fun _ => hCeil⟩
        have hCounts := hTracks.counts_ofRat
        rw [← hCast] at hCounts
        rw [hr]
        exact hCounts

end Counts

end Number

end SemanticCore
