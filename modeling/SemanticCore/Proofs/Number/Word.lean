import Mathlib.Data.Rat.Floor
import SemanticCore.Number.Word

/-!
# Words of numbers

`Number.ofWord` embeds the words of 32 bits, and `Number.toWord` takes every integer to the word of
its lowest 32 bits. So a bit operation on numbers is the operation on their words.

* `Number.toNat_toWord_ofInt`: the word of an integer is its remainder by `2 ^ 32`.
* `Number.toWord_ofWord`, `Number.ofWord_inj`: words are embedded.
* `Number.toWord_bitAnd`, `Number.toWord_bitOr`, `Number.toWord_bitNot`: the operations.
-/

namespace SemanticCore.Number

variable {x y : Number} {v w : UInt32}

theorem toNat_toWord_ofInt (i : Int) : ((ofInt i).toWord.toNat : Int) = i % 2 ^ 32 := by
  have hTruncate : truncate ((i : Int) : Rat) = i := by
    rw [truncate]
    split
    · rw [Rat.ceil_intCast]
    · rw [Rat.floor_intCast]
  have hNonneg : 0 ≤ i % 2 ^ 32 := Int.emod_nonneg i (by decide)
  have hLt : i % 2 ^ 32 < 2 ^ 32 := Int.emod_lt_of_pos i (by decide)
  have hSmall : (i % 2 ^ 32).toNat < 2 ^ 32 := by omega
  have hWord : (ofInt i).toWord = UInt32.ofNat (i % 2 ^ 32).toNat := by
    simp only [ofInt, toWord, hTruncate]
    rfl
  rw [hWord, UInt32.toNat_ofNat_of_lt' hSmall, Int.toNat_of_nonneg hNonneg]

theorem toNat_toWord_ofNat (n : Nat) : (ofNat n).toWord.toNat = n % 2 ^ 32 := by
  have hInt := toNat_toWord_ofInt n
  exact_mod_cast hInt

theorem toWord_ofNat (n : Nat) : (ofNat n).toWord = UInt32.ofNat (n % 2 ^ 32) := by
  have hLt : n % 2 ^ 32 < 2 ^ 32 := Nat.mod_lt n (Nat.two_pow_pos 32)
  apply UInt32.toNat_inj.mp
  rw [toNat_toWord_ofNat]
  exact (UInt32.toNat_ofNat_of_lt' hLt).symm

@[simp]
theorem toWord_ofWord (w : UInt32) : (ofWord w).toWord = w := by
  have hLt := w.toNat_lt
  have hWord : ((ofWord w).toWord.toNat : Int) = w.toNat := by
    rw [ofWord, toNat_toWord_ofInt]
    split <;> omega
  exact UInt32.toNat_inj.mp (by exact_mod_cast hWord)

theorem ofWord_inj : ofWord v = ofWord w ↔ v = w := by
  constructor
  · intro h
    rw [← toWord_ofWord v, h, toWord_ofWord]
  · rintro rfl
    rfl

/-- A number below `2 ^ 31` is what its word is read as. -/
theorem ofWord_toWord_ofNat {n : Nat} (h : n < 2 ^ 31) : ofWord (ofNat n).toWord = ofNat n := by
  have hLast : n % 2 ^ 32 = n := Nat.mod_eq_of_lt (by omega)
  have hSign : n < 0x80000000 := by omega
  rw [ofWord, toNat_toWord_ofNat, hLast, if_pos hSign, ofNat]

theorem ofWord_zero : ofWord 0 = 0 := rfl

@[simp]
theorem toWord_bitAnd (x y : Number) : (x.bitAnd y).toWord = x.toWord &&& y.toWord :=
  toWord_ofWord _

@[simp]
theorem toWord_bitOr (x y : Number) : (x.bitOr y).toWord = x.toWord ||| y.toWord :=
  toWord_ofWord _

@[simp]
theorem toWord_bitNot (x : Number) : x.bitNot.toWord = ~~~ x.toWord := toWord_ofWord _

theorem bitAnd_eq_zero_iff : x.bitAnd y = 0 ↔ x.toWord &&& y.toWord = 0 := by
  rw [bitAnd, ← ofWord_zero, ofWord_inj]

/-- Natural numbers have no bit in common if their last 32 bits have none. -/
theorem bitAnd_ofNat_eq_zero_iff (m n : Nat) :
    (ofNat m).bitAnd (ofNat n) = 0 ↔ m % 2 ^ 32 &&& n % 2 ^ 32 = 0 := by
  rw [bitAnd_eq_zero_iff, ← UInt32.toNat_inj, UInt32.toNat_and, toNat_toWord_ofNat,
    toNat_toWord_ofNat, UInt32.toNat_zero]

end SemanticCore.Number
