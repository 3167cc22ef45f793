import Mathlib.Tactic.Linarith
import SemanticCore.Proofs.Types.Relations
import SemanticCore.Types.Literal

/-!
# Ranges of the integer types

Among the types of one sign the range grows with the width, at both ends. So the first type of a
ladder that holds a value is the narrowest one, and a wider type holds what a narrower one does.
Among the types of its sign an integer converts without a cast to the wider ones only, so that a
literal keeps its value.

* `IntegerKind.holds_iff_signed`, `IntegerKind.holds_iff_unsigned`: the two forms of a range.
* `IntegerKind.holds_of_bits_le`: a wider type holds what a narrower one holds.
* `IntegerKind.best_narrowest`: the type that is found for a literal, and what conversion keeps.
-/

namespace SemanticCore

namespace IntegerKind

variable {k k' : IntegerKind} {v : Int} {signed : Bool}

/-! ## Ranges -/

theorem holds_iff : k.holds v = true ↔ k.minValue ≤ v ∧ v ≤ k.maxValue := by
  simp only [holds, Bool.and_eq_true, decide_eq_true_eq]

/-- A signed type holds the numbers in two's complement. -/
theorem holds_iff_signed (hSign : k.signed = true) :
    k.holds v = true ↔ -2 ^ (k.bits - 1) ≤ v ∧ v < 2 ^ (k.bits - 1) := by
  have hMin : k.minValue = -2 ^ (k.bits - 1) := by
    rw [minValue, if_pos hSign]
    exact congrArg Neg.neg (Nat.cast_pow 2 _)
  have hMax : k.maxValue = 2 ^ (k.bits - 1) - 1 := by
    rw [maxValue, if_pos hSign]
    exact congrArg (· - 1) (Nat.cast_pow 2 _)
  rw [holds_iff, hMin, hMax]
  omega

theorem holds_iff_unsigned (hSign : k.signed = false) :
    k.holds v = true ↔ 0 ≤ v ∧ v < 2 ^ k.bits := by
  have hMin : k.minValue = 0 := by rw [minValue, hSign, if_neg Bool.false_ne_true]
  have hMax : k.maxValue = 2 ^ k.bits - 1 := by
    rw [maxValue, hSign, if_neg Bool.false_ne_true]
    exact congrArg (· - 1) (Nat.cast_pow 2 _)
  rw [holds_iff, hMin, hMax]
  omega

theorem holds_of_bits_le (hSign : k.signed = k'.signed) (hBits : k.bits ≤ k'.bits)
    (h : k.holds v = true) : k'.holds v = true := by
  have hPower : ∀ m n : Nat, m ≤ n → (2 : Int) ^ m ≤ 2 ^ n :=
    fun m n hLe => pow_le_pow_right₀ (by norm_num) hLe
  cases hCase : k'.signed with
  | true =>
    rw [holds_iff_signed (hSign.trans hCase)] at h
    rw [holds_iff_signed hCase]
    have := hPower (k.bits - 1) (k'.bits - 1) (by omega)
    omega
  | false =>
    rw [holds_iff_unsigned (hSign.trans hCase)] at h
    rw [holds_iff_unsigned hCase]
    have := hPower k.bits k'.bits hBits
    omega

/-! ## The ladder -/

theorem mem_ladder : k ∈ ladder signed ↔ k.signed = signed := by
  rw [ladder, List.mem_map]
  constructor
  · rintro ⟨width, -, rfl⟩
    rfl
  · rintro rfl
    refine ⟨k.width, ?_, rfl⟩
    cases k.width <;> decide

/-- The types of a ladder are listed from the narrowest to the widest. -/
theorem pairwise_ladder (signed : Bool) :
    (ladder signed).Pairwise fun k k' => k.bits < k'.bits := by
  cases signed <;> decide

/-- What is found on a ladder holds the value, and nothing before it does. -/
theorem not_holds_of_find? (h : (ladder signed).find? (·.holds v) = some k)
    (hSign : k'.signed = signed) (hBits : k'.bits < k.bits) : k'.holds v = false := by
  obtain ⟨-, before, after, hLadder, hBefore⟩ := List.find?_eq_some_iff_append.mp h
  have hMem : k' ∈ before ++ k :: after := hLadder ▸ mem_ladder.mpr hSign
  have hSorted := pairwise_ladder signed
  rw [hLadder, List.pairwise_append, List.pairwise_cons] at hSorted
  rcases List.mem_append.mp hMem with hFirst | hRest
  · simpa using hBefore k' hFirst
  · rcases List.mem_cons.mp hRest with rfl | hLast
    · exact absurd hBits (Nat.lt_irrefl _)
    · exact absurd hBits (Nat.lt_asymm (hSorted.2.1.1 k' hLast))

theorem best_of_find? (h : (ladder signed).find? (·.holds v) = some k) : best v signed = k := by
  rw [best, h, Option.getD_some]

theorem exists_find? (hSign : k.signed = signed) (h : k.holds v = true) :
    ∃ k', (ladder signed).find? (·.holds v) = some k' :=
  Option.isSome_iff_exists.mp (List.find?_isSome.mpr ⟨k, mem_ladder.mpr hSign, h⟩)

theorem signed_best (v : Int) (signed : Bool) : (best v signed).signed = signed := by
  cases hFind : (ladder signed).find? (·.holds v) with
  | none => rw [best, hFind, Option.getD_none]
  | some k => exact best_of_find? hFind ▸ mem_ladder.mp (List.mem_of_find?_eq_some hFind)

/-! ## Conversion -/

theorem convertsImplicitly_integer_iff :
    (Ty.primitive (.integer k)).convertsImplicitly (.primitive (.integer k')) = true ↔
      k = k' ∨ k.bits < k'.bits := by
  rw [Ty.convertsImplicitly_iff, Ty.equal_iff]
  constructor
  · rintro ⟨-, hAlike | hWidens⟩
    · cases hAlike
      exact .inl rfl
    · cases hWidens with
      | integer bits => exact .inr bits
  · rintro (rfl | hBits)
    · exact ⟨⟨nofun, nofun⟩, .inl (.primitive _)⟩
    · exact ⟨⟨nofun, nofun⟩, .inr (.integer hBits)⟩

/-- The type found for a literal has the sign that is asked for. If some type of that sign holds the
value, it is the narrowest of those that do, else the widest of all. A conversion without a cast
between types of one sign keeps every value. -/
theorem best_narrowest (v : Int) (signed : Bool) :
    (best v signed).signed = signed ∧
      ((∃ k : IntegerKind, k.signed = signed ∧ k.holds v = true) →
        (best v signed).holds v = true ∧
          ∀ k : IntegerKind, k.signed = signed → k.bits < (best v signed).bits →
            k.holds v = false) ∧
      ((∀ k : IntegerKind, k.signed = signed → k.holds v = false) →
        best v signed = ⟨signed, .w128⟩) ∧
      ∀ a b : IntegerKind, a.signed = b.signed →
        (Ty.primitive (.integer a)).convertsImplicitly (.primitive (.integer b)) = true →
          a.holds v = true → b.holds v = true := by
  refine ⟨signed_best v signed, ?_, ?_, ?_⟩
  · rintro ⟨k, hSign, hHolds⟩
    obtain ⟨t, hFind⟩ := exists_find? hSign hHolds
    have hFound : t.holds v = true := by simpa using List.find?_some hFind
    rw [best_of_find? hFind]
    exact ⟨hFound, fun k' hSign' hBits => not_holds_of_find? hFind hSign' hBits⟩
  · intro hNone
    have hFind : (ladder signed).find? (·.holds v) = none := by
      refine List.find?_eq_none.mpr fun k hMem => ?_
      rw [hNone k (mem_ladder.mp hMem)]
      exact Bool.false_ne_true
    rw [best, hFind, Option.getD_none]
  · intro a b hSign hConverts hHolds
    have hBits : a.bits ≤ b.bits := by
      rcases convertsImplicitly_integer_iff.mp hConverts with rfl | hLt
      · exact Nat.le_refl _
      · exact Nat.le_of_lt hLt
    exact holds_of_bits_le hSign hBits hHolds

/-- One below the least signed byte needs two bytes; `2 ^ 127` is above all signed types. -/
theorem best_narrowest_below_byte :
    (best (-129) true).signed = true ∧ (best (-129) true).holds (-129) = true ∧
      (⟨true, .w8⟩ : IntegerKind).holds (-129) = false ∧
      (⟨true, .w32⟩ : IntegerKind).holds (-129) = true ∧ best (2 ^ 127) true = ⟨true, .w128⟩ := by
  obtain ⟨hSign, hNarrowest, -, hKept⟩ := best_narrowest (-129) true
  obtain ⟨hHolds, hNarrower⟩ := hNarrowest ⟨⟨true, .w16⟩, rfl, by decide⟩
  refine ⟨hSign, hHolds, hNarrower ⟨true, .w8⟩ rfl (by decide), ?_, ?_⟩
  · refine hKept ⟨true, .w16⟩ ⟨true, .w32⟩ rfl ?_ (by decide)
    exact convertsImplicitly_integer_iff.mpr (.inr (by decide))
  · refine (best_narrowest (2 ^ 127) true).2.2.1 fun k hSigned => ?_
    obtain ⟨signed, width⟩ := k
    obtain rfl : signed = true := hSigned
    cases width <;> decide

end IntegerKind

end SemanticCore
