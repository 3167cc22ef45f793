import SemanticCore.Proofs.Types.Built
import SemanticCore.Proofs.Types.Extent

/-!
# The layout of arrays

The elements of an array lie one after another without anything between them, so they are aligned
only if the size of an element is a multiple of its alignment. Of all types only a union, whose size
is that of its largest variant, can have another size, and with it the arrays whose innermost
elements are unions.

* `Ty.array_aligned`: when the elements of an array are aligned.
* `Ty.array_of_unions_unaligned`: an array of unions whose elements are not.
-/

namespace SemanticCore

/-- Multiples of a size are aligned, from the second one on, exactly if the size is. -/
theorem dvd_multiples_iff {a s n : Nat} (hn : n ≠ 0) : (∀ i < n, a ∣ i * s) ↔ n = 1 ∨ a ∣ s := by
  constructor
  · intro h
    by_cases hOne : n = 1
    · exact Or.inl hOne
    · have hSecond := h 1 (by omega)
      rw [Nat.one_mul] at hSecond
      exact Or.inr hSecond
  · rintro (rfl | hDvd) i hi
    · rw [Nat.lt_one_iff.mp hi, Nat.zero_mul]
      exact Nat.dvd_zero a
    · exact Nat.dvd_mul_left_of_dvd hDvd i

namespace Ty

/-- The elements of an array lie at the multiples of their size. These are multiples of the
alignment whenever the innermost elements are no unions, and else exactly if there is one element
only or its size happens to be a multiple of its alignment. -/
theorem array_aligned {o : Origin} {e : Ty} {n : Nat} (hLength : n ≠ 0)
    (hSize : (array o e n).size.lt (.ofNat (2 ^ 53)) = true) :
    ∃ extent : Extent, e.layout = ⟨.ofNat extent.size, .ofNat extent.alignment⟩ ∧
      (array o e n).layout = ⟨.ofNat (extent.size * n), .ofNat extent.alignment⟩ ∧
      (e.cell.kind ≠ .union → extent.alignment ∣ extent.size) ∧
      ((∀ i < n, extent.alignment ∣ i * extent.size) ↔
        n = 1 ∨ extent.alignment ∣ extent.size) := by
  obtain ⟨extent, hExtent⟩ := e.exists_extent
  have hArray := Layout.measures_array hExtent.measures hLength (.ofNat o.pointerSize.bytes)
  rw [← layout_array] at hArray
  have hTotal : extent.size * n < 2 ^ 53 := hArray.size.lt_iff.mp hSize
  have hElement : extent.size ≤ extent.size * n :=
    Nat.le_mul_of_pos_right extent.size (Nat.pos_of_ne_zero hLength)
  exact ⟨extent, hExtent.measures.eq (by omega), hArray.eq hTotal, hExtent.dvd,
    dvd_multiples_iff hLength⟩

/-- Three tuples of a byte and a word of two bytes. -/
theorem array_aligned_tuples :
    ∃ extent : Extent,
      (tuple ⟨0, .eight, 64⟩ [.primitive (.integer ⟨false, .w8⟩),
        .primitive (.integer ⟨false, .w16⟩)]).layout =
          ⟨.ofNat extent.size, .ofNat extent.alignment⟩ ∧
      (array ⟨0, .eight, 65⟩ (tuple ⟨0, .eight, 64⟩ [.primitive (.integer ⟨false, .w8⟩),
        .primitive (.integer ⟨false, .w16⟩)]) 3).layout =
          ⟨.ofNat (extent.size * 3), .ofNat extent.alignment⟩ ∧
      (TypeKind.tuple ≠ .union → extent.alignment ∣ extent.size) ∧
      ((∀ i < 3, extent.alignment ∣ i * extent.size) ↔
        3 = 1 ∨ extent.alignment ∣ extent.size) := by
  refine array_aligned (by decide) ?_
  simp only [size, layout_array, layout_tuple, layouts, layout_primitive, List.map_cons,
    List.map_nil]
  decide +kernel

/-- A union of five bytes and a word of two has size five and alignment two. -/
theorem array_of_unions_unaligned :
    (array ⟨0, .eight, 66⟩ (union ⟨0, .eight, 65⟩ [tuple ⟨0, .eight, 64⟩
        (List.replicate 5 (.primitive (.integer ⟨false, .w8⟩))),
        .primitive (.integer ⟨false, .w16⟩)]) 2).Built ∧
      (union ⟨0, .eight, 65⟩ [tuple ⟨0, .eight, 64⟩
        (List.replicate 5 (.primitive (.integer ⟨false, .w8⟩))),
        .primitive (.integer ⟨false, .w16⟩)]).layout = ⟨5, 2⟩ ∧
      ¬ 2 ∣ 1 * 5 := by
  let bytes := List.replicate 5 (primitive (.integer ⟨false, .w8⟩))
  let variants := [tuple ⟨0, .eight, 64⟩ bytes, .primitive (.integer ⟨false, .w16⟩)]
  refine ⟨?_, ?_, by decide⟩
  · exact ⟨0, 8, _, [.tuple bytes, .union variants],
      .array (union ⟨0, .eight, 65⟩ variants) 2, rfl, rfl⟩
  · simp only [layout_union, layouts, layout_tuple, layout_primitive, List.map_cons, List.map_nil,
      List.map_replicate]
    decide +kernel

end Ty

end SemanticCore
