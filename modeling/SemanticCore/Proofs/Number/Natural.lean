import SemanticCore.Number.Basic

/-!
# Natural numbers as numbers

`Number.ofNat` embeds the natural numbers, and `Number.toNat?` is its inverse: it recognizes exactly
the embedded ones.
-/

namespace SemanticCore.Number

@[simp]
theorem toInt?_ofInt (i : Int) : (ofInt i).toInt? = some i := by
  simp [ofInt, toInt?]

@[simp]
theorem toNat?_ofNat (n : Nat) : (ofNat n).toNat? = some n := by
  simp [ofNat, toNat?]

theorem eq_ofInt_of_toInt? {x : Number} {i : Int} (h : x.toInt? = some i) : x = ofInt i := by
  cases x with
  | nan => cases h
  | infinity negative => cases h
  | finite q =>
    simp only [toInt?] at h
    split at h
    · rename_i hDen
      cases h
      rw [ofInt, Number.finite.injEq]
      exact Rat.ext (by simp) (by simp [hDen])
    · cases h

theorem eq_ofNat_of_toNat? {x : Number} {n : Nat} (h : x.toNat? = some n) : x = ofNat n := by
  unfold toNat? at h
  split at h
  · rename_i m hInt
    cases h
    exact eq_ofInt_of_toInt? hInt
  · cases h

theorem ofNat_injective {m n : Nat} (h : ofNat m = ofNat n) : m = n := by
  have hm := toNat?_ofNat m
  rw [h, toNat?_ofNat] at hm
  exact (Option.some.inj hm).symm

end SemanticCore.Number
