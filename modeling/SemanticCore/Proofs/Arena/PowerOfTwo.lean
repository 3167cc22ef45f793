import Mathlib.Data.Nat.Bitwise
import SemanticCore.Proofs.Arena.Safety
import SemanticCore.Proofs.Number.Predecessor

/-!
# Powers of two as alignments

The test for powers of two takes the bits that a number has in common with its predecessor, in words
of 32 bits. Up to `2 ^ 32` this is exact. Above it only the last 32 bits are seen: numbers pass that
are no powers of two, and an arena takes them for alignments. From `2 ^ 53` on the predecessor is
rounded, so that fewer numbers pass.

A number is moved up to a multiple of a power of two by a division, and not by a mask as in the
usual formula. In double precision both come to the same up to `2 ^ 53`.

* `Number.isPowerOfTwo_iff`: what passes for a power of two.
* `Number.Disguised`: the numbers that pass and are none.
* `Arena.alignment_checked_iff`: the test is right, and keeps all other alignments from an arena,
  except for those.
* `alignNat_two_pow`: the formula with a mask.
* `Number.alignUp_isLeast`: the least multiple of a power of two, computed in double precision.
-/

namespace SemanticCore

namespace Number

/-! ## What the test sees -/

variable {x : Number} {n : Nat}

/-- The last 32 bits of a number look like those of a power of two: all are zero, or all but one.
From `2 ^ 53` on, where the predecessor is rounded, the one has to be the second. -/
def LastBitsPass (n : Nat) : Prop :=
  n % 2 ^ 32 = 0 ∨ n % 2 ^ 32 = 2 ∨ n < 2 ^ 53 ∧ ∃ k, n % 2 ^ 32 = 2 ^ k

/-- Without its last two bits a number keeps all others. -/
theorem lt_four_of_and (h : n &&& (n - n % 4) = 0) : n < 4 := by
  have hQuot : n / 2 ^ 2 &&& (n - n % 4) / 2 ^ 2 = 0 := by
    rw [← Nat.and_div_two_pow, h, Nat.zero_div]
  have hSame : (n - n % 4) / 2 ^ 2 = n / 2 ^ 2 := by omega
  rw [hSame, Nat.and_self] at hQuot
  omega

/-- Up to `2 ^ 32` the test is exact. -/
theorem exists_two_pow_of_le (hPos : 0 < n) (h : n ≤ 2 ^ 32) (hPass : LastBitsPass n) :
    ∃ k, n = 2 ^ k := by
  rcases h.eq_or_lt with rfl | hLt
  · exact ⟨32, rfl⟩
  · rw [LastBitsPass, Nat.mod_eq_of_lt hLt] at hPass
    rcases hPass with hZero | hTwo | ⟨-, hPower⟩
    · omega
    · exact ⟨1, hTwo⟩
    · exact hPower

section Large

variable (hDouble : (ofNat n).IsDouble) (hLast : n % 2 ^ 32 ≠ 0)

include hDouble hLast

theorem bitAnd_pred_iff_of_lt (hLow : 2 ^ 53 < n) (hHigh : n < 2 ^ 54) :
    (ofNat n).bitAnd (ofNat n - 1) = 0 ↔ n % 2 ^ 32 = 2 := by
  obtain ⟨hEven, hPred⟩ := ofNat_sub_one_of_lt hDouble hLow hHigh
  have hWord : (n - n % 4) % 2 ^ 32 = n % 2 ^ 32 - n % 2 ^ 32 % 4 := by omega
  rw [hPred, bitAnd_ofNat_eq_zero_iff, hWord]
  constructor
  · intro hApart
    have hLt := lt_four_of_and hApart
    omega
  · intro hTwo
    rw [hTwo]
    rfl

theorem bitAnd_pred_iff_of_ge (hLow : 2 ^ 54 ≤ n) (hPower : ∀ k, n ≠ 2 ^ k) :
    (ofNat n).bitAnd (ofNat n - 1) = 0 ↔ n % 2 ^ 32 = 2 := by
  obtain ⟨hFour, hPred⟩ := ofNat_sub_one_of_ge hDouble hLow hPower
  rw [hPred, bitAnd_ofNat_eq_zero_iff, Nat.and_self]
  constructor
  · intro hZero
    exact absurd hZero hLast
  · intro hTwo
    omega

end Large

/-- A double has no bit in common with its predecessor, in words, exactly if its last bits pass. -/
theorem bitAnd_pred_iff (hDouble : (ofNat n).IsDouble) :
    (ofNat n).bitAnd (ofNat n - 1) = 0 ↔ LastBitsPass n := by
  by_cases hLast : n % 2 ^ 32 = 0
  · exact iff_of_true (bitAnd_of_last_zero hLast _) (.inl hLast)
  rcases lt_or_ge n (2 ^ 53) with hSmall | hLarge
  · rw [bitAnd_pred_iff_of_le (Nat.pos_of_ne_zero hLast) hSmall.le]
    constructor
    · exact fun hPower => .inr (.inr ⟨hSmall, hPower⟩)
    · rintro (hZero | hTwo | ⟨-, hPower⟩)
      · exact absurd hZero hLast
      · exact ⟨1, hTwo⟩
      · exact hPower
  · -- the last bits of a large power of two are zero
    have hPower : ∀ k, n ≠ 2 ^ k := by
      rintro k rfl
      have hk : 53 ≤ k := (Nat.pow_le_pow_iff_right (by decide)).mp hLarge
      exact hLast (Nat.mod_eq_zero_of_dvd (Nat.pow_dvd_pow 2 (by omega)))
    have hPass : LastBitsPass n ↔ n % 2 ^ 32 = 2 := by
      rw [LastBitsPass, or_iff_right hLast, or_iff_left]
      exact fun hSmall => absurd hSmall.1 (not_lt.mpr hLarge)
    rw [hPass]
    by_cases hHigh : n < 2 ^ 54
    · have hLow : 2 ^ 53 < n := lt_of_le_of_ne hLarge (hPower 53).symm
      exact bitAnd_pred_iff_of_lt hDouble hLast hLow hHigh
    · exact bitAnd_pred_iff_of_ge hDouble hLast (not_lt.mp hHigh) hPower

/-- What passes for a power of two. -/
theorem isPowerOfTwo_iff (hDouble : x.IsDouble) :
    x.isPowerOfTwo = true ↔ ∃ n, x = ofNat n ∧ 0 < n ∧ LastBitsPass n := by
  constructor
  · intro h
    obtain ⟨n, hPos, rfl⟩ := Arena.exists_of_isPowerOfTwo h
    exact ⟨n, rfl, hPos, (bitAnd_pred_iff hDouble).mp (isPowerOfTwo_ofNat_iff.mp h).2⟩
  · rintro ⟨n, rfl, hPos, hPass⟩
    exact isPowerOfTwo_ofNat_iff.mpr ⟨hPos, (bitAnd_pred_iff hDouble).mpr hPass⟩

/-! ## What passes and is no power of two -/

/-- Between two neighbouring powers of two there is no other. -/
theorem ofNat_ne_two_pow {j : Nat} (hLow : 2 ^ j < n) (hHigh : n < 2 ^ (j + 1)) (k : Nat) :
    ofNat n ≠ ofNat (2 ^ k) := by
  intro hEq
  obtain rfl := ofNat_injective hEq
  have hLt := (Nat.pow_lt_pow_iff_right (by decide)).mp hLow
  have hGt := (Nat.pow_lt_pow_iff_right (by decide)).mp hHigh
  omega

/-- A natural number that passes for a power of two and is none. -/
structure Disguise (n : Nat) : Prop where
  large : 2 ^ 32 < n
  not_power : ∀ k, n ≠ 2 ^ k
  passes : LastBitsPass n

def Disguised (x : Number) : Prop := ∃ n, x = ofNat n ∧ Disguise n

theorem isPowerOfTwo_iff_disguised (hDouble : x.IsDouble) :
    x.isPowerOfTwo = true ↔ (∃ k, x = ofNat (2 ^ k)) ∨ x.Disguised := by
  rw [isPowerOfTwo_iff hDouble]
  constructor
  · rintro ⟨n, rfl, hPos, hPass⟩
    by_cases hPower : ∃ k, n = 2 ^ k
    · obtain ⟨k, rfl⟩ := hPower
      exact .inl ⟨k, rfl⟩
    · have hLarge : 2 ^ 32 < n := by
        by_contra hSmall
        exact hPower (exists_two_pow_of_le hPos (not_lt.mp hSmall) hPass)
      exact .inr ⟨n, rfl, hLarge, not_exists.mp hPower, hPass⟩
  · rintro (⟨k, rfl⟩ | ⟨n, rfl, hDisguise⟩)
    · exact (isPowerOfTwo_iff hDouble).mp (isPowerOfTwo_two_pow k)
    · exact ⟨n, rfl, Nat.zero_lt_of_lt hDisguise.large, hDisguise.passes⟩

theorem not_two_pow_of_disguised (h : x.Disguised) : ¬ ∃ k, x = ofNat (2 ^ k) := by
  rintro ⟨k, rfl⟩
  obtain ⟨n, hEq, hDisguise⟩ := h
  exact hDisguise.not_power k (ofNat_injective hEq).symm

end Number

namespace Arena

open Number

/-! ## The check of an arena -/

/-- An arena refuses what does not pass for a power of two, for whatever size. -/
theorem allocateWithin_eq_refused {x : Number} (h : x.isPowerOfTwo = false) (limit : Nat)
    (a : Arena) (size : Number) : a.allocateWithin limit size x =
      (.error (if size.toNat?.isSome then .alignment x else .size size), a) := by
  cases hSize : size.toNat? with
  | none => simp only [allocateWithin, hSize, Option.isSome_none, Bool.false_eq_true, if_false]
  | some n =>
    simp only [allocateWithin, hSize, h, Option.isSome_some, Bool.not_false, if_true]

theorem allocateWithin_zero {x : Number} (h : x.isPowerOfTwo = true) (limit : Nat) (a : Arena) :
    a.allocateWithin limit (ofNat 0) x = (.ok none, a) := by
  simp only [allocateWithin, toNat?_ofNat, h, Bool.not_true, Bool.false_eq_true, if_false, if_true]

/-- For a double, the test says whether it is a power of two unless the double is disguised. So an
arena refuses every alignment that is no power of two, unless it is disguised. -/
theorem alignment_checked_iff {x : Number} (hDouble : x.IsDouble) :
    ((x.isPowerOfTwo = true ↔ ∃ k, x = ofNat (2 ^ k)) ↔ ¬ x.Disguised) ∧
      (((¬ ∃ k, x = ofNat (2 ^ k)) → ∀ (limit : Nat) (a : Arena) (size : Number),
        a.allocateWithin limit size x =
          (.error (if size.toNat?.isSome then .alignment x else .size size), a)) ↔
        ¬ x.Disguised) := by
  have hTest := isPowerOfTwo_iff_disguised hDouble
  constructor
  · rw [hTest]
    constructor
    · intro hRight hDisguised
      exact not_two_pow_of_disguised hDisguised (hRight.mp (.inr hDisguised))
    · intro hPlain
      rw [or_iff_left hPlain]
  · constructor
    · intro hRefused hDisguised
      have hAnswer := hRefused (not_two_pow_of_disguised hDisguised) 0 { blockSize := 1 } (ofNat 0)
      rw [allocateWithin_zero (hTest.mpr (.inr hDisguised))] at hAnswer
      cases (Prod.mk.inj hAnswer).1
    · intro hPlain hOther limit a size
      refine allocateWithin_eq_refused ?_ limit a size
      rw [← Bool.not_eq_true, hTest]
      exact not_or.mpr ⟨hOther, hPlain⟩

/-- The last 32 bits of `2 ^ 53 + 4` are those of a power of two, but its predecessor is rounded
back to it. -/
theorem alignment_checked_rounded :
    (ofNat (2 ^ 53 + 4)).IsDouble ∧ (ofNat (2 ^ 53 + 4)).isPowerOfTwo = false ∧
      ∀ (limit : Nat) (a : Arena) (size : Number),
        a.allocateWithin limit size (ofNat (2 ^ 53 + 4)) =
          (.error
            (if size.toNat?.isSome then .alignment (ofNat (2 ^ 53 + 4)) else .size size), a) := by
  have hDouble : (ofNat (2 ^ 53 + 4)).IsDouble := by
    have hValue :
        (((2 ^ 53 + 4 : Nat) : Int) : Rat) = ((2 ^ 51 + 1 : Nat) : Rat) * 2 ^ (2 : Int) := by
      norm_num
    rw [ofNat, ofInt, hValue]
    exact isDouble_of_grid (by norm_num) (by norm_num) (by norm_num)
  have hPlain : ¬ (ofNat (2 ^ 53 + 4)).Disguised := by
    rintro ⟨n, hEq, hDisguise⟩
    obtain rfl := ofNat_injective hEq
    rcases hDisguise.passes with hZero | hTwo | ⟨hSmall, -⟩ <;> omega
  have hOther : ¬ ∃ k, ofNat (2 ^ 53 + 4) = ofNat (2 ^ k) :=
    not_exists.mpr (ofNat_ne_two_pow (j := 53) (by norm_num) (by norm_num))
  obtain ⟨hTest, hCheck⟩ := alignment_checked_iff hDouble
  refine ⟨hDouble, ?_, hCheck.mpr hPlain hOther⟩
  rw [← Bool.not_eq_true, hTest.mpr hPlain]
  exact hOther

/-- One above `2 ^ 32` passes for a power of two, and an arena serves it. -/
theorem disguised_alignment_served :
    (ofNat (2 ^ 32 + 1)).isPowerOfTwo = true ∧ (∀ k, ofNat (2 ^ 32 + 1) ≠ ofNat (2 ^ k)) ∧
      (allocate { blockSize := 16, blocks := #[{ size := 16 }] } 8 (ofNat (2 ^ 32 + 1))).1 =
        .ok (some ⟨0, 0, 8, ⟨0, 0, 8⟩⟩) := by
  have hPass : (ofNat (2 ^ 32 + 1)).isPowerOfTwo = true :=
    isPowerOfTwo_ofNat_iff.mpr
      ⟨by decide, (bitAnd_pred_iff_of_le (by decide) (by decide)).mpr ⟨0, by decide⟩⟩
  exact ⟨hPass, ofNat_ne_two_pow (j := 32) (by norm_num) (by norm_num), by decide +kernel⟩

end Arena

/-! ## Moving up to a multiple of a power of two -/

section TwoPow

variable {n i k : Nat}

/-- The formula with a mask: the last `k` bits of `n + 2 ^ k - 1` are cleared. -/
theorem alignNat_two_pow (n k : Nat) :
    alignNat n (2 ^ k) = Nat.ldiff (n + 2 ^ k - 1) (2 ^ k - 1) := by
  apply Nat.eq_of_testBit_eq
  intro i
  rw [alignNat, Nat.testBit_mul_two_pow, Nat.testBit_div_two_pow, Nat.testBit_ldiff,
    Nat.testBit_two_pow_sub_one]
  by_cases hi : k ≤ i
  · simp [hi, not_lt.mpr hi]
  · simp [hi, not_le.mp hi]

theorem alignNat_mono (a : Nat) (h : i ≤ n) : alignNat i a ≤ alignNat n a :=
  Nat.mul_le_mul_right a (Nat.div_le_div_right (by omega))

theorem alignNat_of_dvd {a : Nat} (hPos : 0 < a) (h : a ∣ n) : alignNat n a = n :=
  le_antisymm ((isLeast_alignNat n hPos).2 ⟨h, Nat.le_refl n⟩) (le_alignNat n hPos)

/-- The multiple is as far from `2 ^ 53` as the number has to be. -/
theorem alignNat_add_le (h : n + 2 ^ k ≤ 2 ^ 53) : alignNat n (2 ^ k) + 2 ^ k ≤ 2 ^ 53 := by
  have hPos : 0 < 2 ^ k := Nat.two_pow_pos k
  have hk : k ≤ 53 := (Nat.pow_le_pow_iff_right (by decide)).mp (by omega : 2 ^ k ≤ 2 ^ 53)
  obtain ⟨c, hc⟩ := dvd_alignNat n (2 ^ k)
  obtain ⟨d, hd⟩ := Nat.pow_dvd_pow 2 hk
  have hLt : 2 ^ k * c < 2 ^ k * d := by
    rw [← hc, ← hd]
    exact (alignNat_lt n hPos).trans_le h
  have hSucc : c + 1 ≤ d := Nat.lt_of_mul_lt_mul_left hLt
  rw [hc, hd, ← Nat.mul_succ]
  exact Nat.mul_le_mul_left _ hSucc

namespace Number

/-- Moving a number up in double precision finds the least multiple of a power of two that is not
below it. Doing it again changes nothing, lesser numbers are not moved further, and less than the
power of two is added. -/
theorem alignUp_isLeast (h : n + 2 ^ k ≤ 2 ^ 53) :
    (∃ m, (ofNat n).alignUp (ofNat (2 ^ k)) = ofNat m ∧
        IsLeast {c | 2 ^ k ∣ c ∧ n ≤ c} m ∧ m < n + 2 ^ k) ∧
      ((ofNat n).alignUp (ofNat (2 ^ k))).alignUp (ofNat (2 ^ k)) =
        (ofNat n).alignUp (ofNat (2 ^ k)) ∧
      ∀ i ≤ n,
        ((ofNat i).alignUp (ofNat (2 ^ k))).le ((ofNat n).alignUp (ofNat (2 ^ k))) = true := by
  have hPos : 0 < 2 ^ k := Nat.two_pow_pos k
  rw [alignUp_ofNat hPos h]
  refine ⟨⟨_, rfl, isLeast_alignNat n hPos, alignNat_lt n hPos⟩, ?_, fun i hi => ?_⟩
  · rw [alignUp_ofNat hPos (alignNat_add_le h), alignNat_of_dvd hPos (dvd_alignNat n _)]
  · rw [alignUp_ofNat hPos (by omega), le_ofNat]
    exact decide_eq_true (alignNat_mono _ hi)

/-- A number of more than 32 bits and a page of `2 ^ 12` bytes. -/
theorem alignUp_isLeast_page : 2 ^ 40 + 1 + 2 ^ 12 ≤ 2 ^ 53 ∧
    (∃ m, (ofNat (2 ^ 40 + 1)).alignUp (ofNat (2 ^ 12)) = ofNat m ∧
        IsLeast {c | 2 ^ 12 ∣ c ∧ 2 ^ 40 + 1 ≤ c} m ∧ m < 2 ^ 40 + 1 + 2 ^ 12) ∧
      ((ofNat (2 ^ 40 + 1)).alignUp (ofNat (2 ^ 12))).alignUp (ofNat (2 ^ 12)) =
        (ofNat (2 ^ 40 + 1)).alignUp (ofNat (2 ^ 12)) ∧
      ((ofNat (2 ^ 40)).alignUp (ofNat (2 ^ 12))).le
        ((ofNat (2 ^ 40 + 1)).alignUp (ofNat (2 ^ 12))) = true := by
  have hRange : 2 ^ 40 + 1 + 2 ^ 12 ≤ 2 ^ 53 := by norm_num
  obtain ⟨hLeast, hAgain, hMono⟩ := alignUp_isLeast hRange
  exact ⟨hRange, hLeast, hAgain, hMono (2 ^ 40) (Nat.le_add_right _ 1)⟩

end Number

end TwoPow

end SemanticCore
