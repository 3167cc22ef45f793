import SemanticCore.Number.Decimal
import SemanticCore.Proofs.Number.Significand

/-!
# The shortest decimal of a double

`Decimal.shortest` finds a decimal that rounds to the double it is made from: seventeen digits are
always enough (`Decimal.contains_shortest`). No other double has that decimal in its neighbourhood
(`Decimal.eq_of_contains`), so a double can be told from it.
-/

namespace SemanticCore.Decimal

/-! ## Neighbourhoods of doubles -/

/-- The half distance to the double before. -/
def reach (m : Nat) (e : Int) : Rat := Significand.gapBelow m e / 2

/-- The neighbourhood of a double in terms of its significand. -/
theorem neighbourhood_eq {q : Rat} {m : Nat}
    (h : Significand q m (BinaryFormat.double.spacing q)) :
    neighbourhood .double q =
      ⟨q, q - reach m (BinaryFormat.double.spacing q),
        q + 2 ^ BinaryFormat.double.spacing q / 2, m % 2 == 0⟩ := by
  have hStep : (0 : Rat) < 2 ^ BinaryFormat.double.spacing q := by positivity
  have hFloor : (q / 2 ^ BinaryFormat.double.spacing q).floor.toNat = m := by
    have hQuot : q / 2 ^ BinaryFormat.double.spacing q = ((m : Int) : Rat) := by
      rw [div_eq_iff hStep.ne']
      exact_mod_cast h.value
    rw [hQuot, Rat.floor_intCast]
    rfl
  have hHalf : (2 : Rat) ^ (BinaryFormat.double.spacing q - 1)
      = 2 ^ BinaryFormat.double.spacing q / 2 := zpow_sub_one₀ (by norm_num) _
  have hPower : (m = Nat.pow 2 (BinaryFormat.double.precision - 1) ∧
      BinaryFormat.double.minExponent < BinaryFormat.double.spacing q)
        = (m = 2 ^ 52 ∧ -1074 < BinaryFormat.double.spacing q) := rfl
  simp only [neighbourhood, scale_two, hFloor, hHalf, hPower, reach, Significand.gapBelow]
  split <;> rfl

theorem contains_iff {q v : Rat} {m : Nat}
    (h : Significand q m (BinaryFormat.double.spacing q)) :
    (neighbourhood .double q).contains v = true ↔
      q - reach m (BinaryFormat.double.spacing q) ≤ v ∧
        v ≤ q + 2 ^ BinaryFormat.double.spacing q / 2 ∧
        (m % 2 ≠ 0 → q - reach m (BinaryFormat.double.spacing q) < v ∧
          v < q + 2 ^ BinaryFormat.double.spacing q / 2) := by
  rw [neighbourhood_eq h, Neighbourhood.contains]
  by_cases hEven : m % 2 = 0
  · simp [hEven]
  · simp only [beq_iff_eq, hEven, if_false, Bool.and_eq_true, decide_eq_true_eq, ne_eq,
      not_false_eq_true, true_imp_iff]
    exact ⟨fun hv => ⟨hv.1.le, hv.2.le, hv⟩, fun hv => hv.2.2⟩

/-- A rational does not round to two doubles. -/
theorem not_contains_of_lt {q q' v : Rat} {m m' : Nat}
    (h : Significand q m (BinaryFormat.double.spacing q))
    (h' : Significand q' m' (BinaryFormat.double.spacing q')) (hLt : q < q')
    (hv : (neighbourhood .double q).contains v = true) :
    (neighbourhood .double q').contains v ≠ true := by
  intro hv'
  obtain ⟨-, hUp, hInside⟩ := (contains_iff h).mp hv
  obtain ⟨hDown, -, hInside'⟩ := (contains_iff h').mp hv'
  have hNext := h.next_le h' hLt
  have hPrevious := h.le_previous h' hLt
  unfold reach at hDown hInside'
  -- a common point is half way between two neighbours, and both have to be even
  have hTie : q + 2 ^ BinaryFormat.double.spacing q = q' := by linarith
  by_cases hEven : m % 2 = 0
  · have hOdd := h.odd_of_next_eq h' hTie hEven
    have := (hInside' (by omega)).1
    linarith
  · have := (hInside hEven).2
    linarith

/-- The double of which a rational is in the neighbourhood is the only one. -/
theorem eq_of_contains {q q' v : Rat} (h : (Number.finite q).IsDouble)
    (h' : (Number.finite q').IsDouble) (hPos : 0 < q) (hPos' : 0 < q')
    (hv : (neighbourhood .double q).contains v = true)
    (hv' : (neighbourhood .double q').contains v = true) : q = q' := by
  obtain ⟨m, hm⟩ := h.exists_significand hPos
  obtain ⟨m', hm'⟩ := h'.exists_significand hPos'
  rcases lt_trichotomy q q' with hLt | hEq | hLt
  · exact absurd hv' (not_contains_of_lt hm hm' hLt hv)
  · exact hEq
  · exact absurd hv (not_contains_of_lt hm' hm hLt hv')

/-! ## Seventeen digits -/

theorem width_le_iff {n k : Nat} (hk : 0 < k) : width n ≤ k ↔ n < 10 ^ k :=
  Nat.length_toDigits_le_iff (by decide) hk

theorem width_pos (n : Nat) : 0 < width n := Nat.length_toDigits_pos

theorem lt_width (n : Nat) : n < 10 ^ width n := (width_le_iff (width_pos n)).mp le_rfl

theorem le_of_width {n : Nat} (h : 0 < n) : 10 ^ (width n - 1) ≤ n := by
  by_contra hLt
  rcases Nat.eq_zero_or_pos (width n - 1) with hk | hk
  · rw [hk] at hLt
    omega
  · have := (width_le_iff hk).mpr (not_le.mp hLt)
    have := width_pos n
    omega

theorem width_bounds {n : Nat} (h : 0 < n) :
    (10 : Rat) ^ ((width n : Int) - 1) ≤ n ∧ (n : Rat) + 1 ≤ (10 : Rat) ^ (width n : Int) := by
  constructor
  · have hExp : (width n : Int) - 1 = ((width n - 1 : Nat) : Int) := by
      have := width_pos n
      omega
    rw [hExp, zpow_natCast]
    exact_mod_cast le_of_width h
  · rw [zpow_natCast]
    exact_mod_cast lt_width n

theorem leadingDigit_bounds {q : Rat} (hPos : 0 < q) :
    (10 : Rat) ^ (leadingDigit q - 1) ≤ q ∧ q < (10 : Rat) ^ leadingDigit q := by
  unfold leadingDigit
  split
  · rename_i hOne
    have hFloor : 1 ≤ q.floor := Rat.le_floor_iff.mpr (by simpa using hOne)
    obtain ⟨n, hn⟩ := Int.eq_ofNat_of_zero_le (le_trans (by decide) hFloor)
    have hLow := Rat.floor_le q
    have hHigh := Rat.lt_floor_add_one q
    rw [hn] at hLow hHigh ⊢
    rw [Int.toNat_natCast]
    obtain ⟨hTen, hTen'⟩ := width_bounds (n := n) (by omega)
    push_cast at hLow hHigh
    exact ⟨by linarith, by linarith⟩
  · -- below one, the digits of the reciprocal count the zeros after the point
    rename_i hOne
    have hInverse : 1 < 1 / q := by
      rw [lt_div_iff₀ hPos]
      linarith
    have hCeil : 1 < (1 / q).ceil := Rat.lt_ceil_iff.mpr (by simpa using hInverse)
    obtain ⟨n, hn⟩ := Int.eq_ofNat_of_zero_le (show 0 ≤ (1 / q).ceil - 1 by omega)
    have hLow : (n : Rat) < 1 / q := by
      have : (n : Int) < (1 / q).ceil := by omega
      exact_mod_cast Rat.lt_ceil_iff.mp this
    have hHigh : 1 / q ≤ (n : Rat) + 1 := by
      have := @Rat.le_ceil (1 / q)
      rw [show (1 / q).ceil = (n : Int) + 1 by omega] at this
      exact_mod_cast this
    rw [show (1 / q).ceil.toNat - 1 = n by omega]
    obtain ⟨hTen, hTen'⟩ := width_bounds (n := n) (by omega)
    have hStep : (0 : Rat) < 10 ^ ((width n : Int) - 1) := by positivity
    constructor
    · rw [show 1 - (width n : Int) - 1 = -(width n : Int) by ring, zpow_neg,
        inv_le_comm₀ (by positivity) hPos, ← one_div]
      linarith
    · rw [show 1 - (width n : Int) = -((width n : Int) - 1) by ring, zpow_neg,
        lt_inv_comm₀ hPos hStep, ← one_div]
      linarith

/-- What is found for a count of digits lies in the neighbourhood. -/
theorem contains_candidate {n : Neighbourhood} {count : Nat} {d : Decimal}
    (h : candidate? n count = some d) : n.contains d.value = true := by
  unfold candidate? at h
  simp only at h
  split at h
  · rename_i hLow hHigh
    split at h
    · cases h
      exact hLow
    · split at h
      · cases h
        exact hHigh
      · split at h
        · cases h
          exact hLow
        · cases h
          exact hHigh
  · rename_i hLow _
    cases h
    exact hLow
  · rename_i _ hHigh
    cases h
    exact hHigh
  · cases h

/-- Something is found unless the decimals on both sides of the center are outside. -/
theorem candidate_isSome {n : Neighbourhood} {count : Nat}
    (h : let low : Decimal :=
          ⟨(n.center / scale 10 (leadingDigit n.center - count)).floor.toNat,
            leadingDigit n.center - count⟩
        n.contains low.value = true ∨
          n.contains ({ low with digits := low.digits + 1 } : Decimal).value = true) :
    (candidate? n count).isSome = true := by
  unfold candidate?
  simp only at h ⊢
  split
  · split
    · rfl
    · split
      · rfl
      · split <;> rfl
  · rfl
  · rfl
  · rename_i hLow hHigh
    rw [hLow, hHigh] at h
    simp at h

/-- The decimals with seventeen digits are closer together than the ends of a neighbourhood. -/
theorem step_lt {q : Rat} {m : Nat} (h : Significand q m (BinaryFormat.double.spacing q))
    (hPos : 0 < q) :
    (10 : Rat) ^ (leadingDigit q - 17) <
      2 ^ BinaryFormat.double.spacing q / 2 + reach m (BinaryFormat.double.spacing q) := by
  have hTen : (10 : Rat) ^ 16 * 10 ^ (leadingDigit q - 17) ≤ q := by
    refine le_trans (le_of_eq ?_) (leadingDigit_bounds hPos).1
    rw [← zpow_natCast, ← zpow_add₀ (by norm_num)]
    congr 1
    push_cast
    ring
  have hValue := h.value
  have hStep : (0 : Rat) < 2 ^ BinaryFormat.double.spacing q := by positivity
  have hTop : (m : Rat) ≤ 2 ^ 53 := by exact_mod_cast h.lt.le
  have hBelow : q ≤ 2 ^ 53 * 2 ^ BinaryFormat.double.spacing q :=
    hValue.trans_le (mul_le_mul_of_nonneg_right hTop hStep.le)
  unfold reach Significand.gapBelow
  split
  · rename_i hFull
    rw [hFull.1] at hValue
    push_cast at hValue
    rw [zpow_sub_one₀ (by norm_num)]
    linarith
  · linarith

/-- With seventeen digits a decimal is found for every double. -/
theorem candidate_double {q : Rat} {m : Nat}
    (h : Significand q m (BinaryFormat.double.spacing q)) (hPos : 0 < q) :
    (candidate? (neighbourhood .double q) 17).isSome = true := by
  apply candidate_isSome
  have hCenter : (neighbourhood .double q).center = q := rfl
  have hStep := step_lt h hPos
  have hUnit : (0 : Rat) < 2 ^ BinaryFormat.double.spacing q := by positivity
  have hReach : 0 < reach m (BinaryFormat.double.spacing q) := by
    unfold reach Significand.gapBelow
    split <;> positivity
  simp only [hCenter, scale_ten, value, contains_iff h]
  have hTen : (0 : Rat) < 10 ^ (leadingDigit q - (17 : Nat)) := by positivity
  have hFloor : 0 ≤ (q / 10 ^ (leadingDigit q - (17 : Nat))).floor :=
    Rat.le_floor_iff.mpr (by simpa using (div_pos hPos hTen).le)
  obtain ⟨n, hn⟩ := Int.eq_ofNat_of_zero_le hFloor
  have hLow := Rat.floor_le (q / 10 ^ (leadingDigit q - (17 : Nat)))
  have hHigh := Rat.lt_floor_add_one (q / 10 ^ (leadingDigit q - (17 : Nat)))
  rw [hn, le_div_iff₀ hTen] at hLow
  rw [hn, div_lt_iff₀ hTen] at hHigh
  rw [hn, Int.toNat_natCast]
  push_cast at hLow hHigh hTen ⊢
  by_cases hInside : q - reach m (BinaryFormat.double.spacing q)
      < n * 10 ^ (leadingDigit q - 17)
  · exact Or.inl ⟨hInside.le, by linarith, fun _ => ⟨hInside, by linarith⟩⟩
  · exact Or.inr ⟨by linarith, by linarith, fun _ => ⟨by linarith, by linarith⟩⟩

/-- The shortest decimal of a double rounds to it. -/
theorem contains_shortest {q : Rat} (h : (Number.finite q).IsDouble) (hPos : 0 < q) :
    (neighbourhood .double q).contains (shortest .double q).value = true := by
  obtain ⟨m, hm⟩ := h.exists_significand hPos
  obtain ⟨d, hd⟩ := Option.isSome_iff_exists.mp (candidate_double hm hPos)
  have hFound : ((List.range 17).findSome? fun k =>
      candidate? (neighbourhood .double q) (k + 1)).isSome = true := by
    rw [List.findSome?_isSome_iff]
    exact ⟨16, by decide, by rw [hd]; rfl⟩
  obtain ⟨d', hd'⟩ := Option.isSome_iff_exists.mp hFound
  obtain ⟨k, -, hk⟩ := List.exists_of_findSome?_eq_some hd'
  rw [shortest, hd', Option.getD_some]
  exact contains_candidate hk

theorem shortest_value_pos {q : Rat} (h : (Number.finite q).IsDouble) (hPos : 0 < q) :
    0 < (shortest .double q).value := by
  obtain ⟨m, hm⟩ := h.exists_significand hPos
  have hLow := ((contains_iff hm).mp (contains_shortest h hPos)).1
  have hStep : (0 : Rat) < 2 ^ BinaryFormat.double.spacing q := by positivity
  have hGap := Significand.gapBelow_le m (BinaryFormat.double.spacing q)
  have hOne : (2 : Rat) ^ BinaryFormat.double.spacing q ≤ q := by
    have : (1 : Rat) ≤ m := by exact_mod_cast hm.pos
    calc (2 : Rat) ^ BinaryFormat.double.spacing q
        = 1 * 2 ^ BinaryFormat.double.spacing q := (one_mul _).symm
      _ ≤ m * 2 ^ BinaryFormat.double.spacing q := mul_le_mul_of_nonneg_right this hStep.le
      _ = q := hm.value.symm
  unfold reach at hLow
  linarith

end SemanticCore.Decimal
