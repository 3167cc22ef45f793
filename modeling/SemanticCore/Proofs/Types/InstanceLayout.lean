import Mathlib.Data.List.Basic
import SemanticCore.Proofs.Types.Built
import SemanticCore.Types.Measure

/-!
# Inherited fields

The instances of a class are laid out afresh, the inherited fields first, and the flags of the class
decide on packing for all of them. So an inherited field lies where it lies in the instances of the
base class, whenever both classes are packed or neither is; else, only if the inherited fields need
no padding.

* `RecordLayout.take_offsets_layOut`: the first members of a record lie as they do alone.
* `Ty.inherited_offsets_iff`: when the inherited fields have the same offsets.
* `Ty.inherited_offsets_differ`: a class that derives from a packed one.
-/

namespace SemanticCore

namespace RecordLayout

/-- Later members do not matter for the offsets of earlier ones, nor does the alignment. -/
theorem take_offsets_layOut (packed : Bool) (ms ms' : List Layout) (x a a' : Number) :
    (layOut packed x a (ms ++ ms')).offsets.take ms.length = (layOut packed x a' ms).offsets := by
  induction ms generalizing x a a' with
  | nil => rfl
  | cons m ms ih =>
    simp only [List.cons_append, layOut, List.length_cons, List.take_succ_cons]
    rw [ih]

theorem offsets_ofFields (packed : Bool) (ms : List Layout) :
    (ofFields ms packed).offsets = (of ms packed).offsets := by
  cases ms <;> rfl

end RecordLayout

namespace Ty

/-- The offsets of fields that are laid out on their own. -/
def fieldOffsets (fields : List Field) (packed : Bool) : List Number :=
  (RecordLayout.ofFields (fieldLayouts fields) packed).offsets

theorem take_fieldOffsets (fs fs' : List Field) (packed : Bool) :
    (fieldOffsets (fs ++ fs') packed).take fs.length = fieldOffsets fs packed := by
  have hLength : fs.length = (fieldLayouts fs).length := by rw [fieldLayouts, List.length_map]
  have hAppend : fieldLayouts (fs ++ fs') = fieldLayouts fs ++ fieldLayouts fs' := by
    rw [fieldLayouts, List.map_append]
    rfl
  rw [fieldOffsets, fieldOffsets, RecordLayout.offsets_ofFields, RecordLayout.offsets_ofFields,
    hAppend, hLength]
  exact RecordLayout.take_offsets_layOut packed _ _ _ _ _

/-- Inherited fields lie as in the instances of the base class exactly if both classes are packed,
neither is, or the fields lie in the same way with and without packing. -/
theorem inherited_offsets_iff (o : Origin) (h : RecordHead) (fs : List Field) (b : Ty) :
    (classType o h fs (some b)).instanceLayout.offsets.take b.flattenedFields.length =
        b.instanceLayout.offsets ↔
      h.flags.isPacked = b.flags.isPacked ∨
        fieldOffsets b.flattenedFields true = fieldOffsets b.flattenedFields false := by
  have hTake := take_fieldOffsets b.flattenedFields fs h.flags.isPacked
  show (fieldOffsets (b.flattenedFields ++ fs) h.flags.isPacked).take _ =
    fieldOffsets b.flattenedFields b.flags.isPacked ↔ _
  rw [hTake]
  cases h.flags.isPacked <;> cases b.flags.isPacked <;> simp [eq_comm]

/-- A class that is not packed and derives from a packed class with a byte and a word. -/
theorem inherited_offsets_differ :
    let base := classType ⟨0, .eight, 64⟩ ⟨⟨0, 0, "B", 0, default⟩, Flags.packed, [], none⟩
      [(default, .primitive (.integer ⟨false, .w8⟩)),
        (default, .primitive (.integer ⟨true, .w32⟩))] none
    let derived := classType ⟨0, .eight, 65⟩ ⟨⟨0, 1, "D", 0, default⟩, Flags.none, [], none⟩ []
      (some base)
    derived.Built ∧ derived.instanceLayout.offsets.take base.flattenedFields.length ≠
      base.instanceLayout.offsets := by
  intro base derived
  let fields : List Field := [(default, .primitive (.integer ⟨false, .w8⟩)),
    (default, .primitive (.integer ⟨true, .w32⟩))]
  have hBase : base.instanceLayout.offsets = [0, 1] := by
    simp only [base, instanceLayout, flattenedFields, flags, fieldLayouts, layout_primitive,
      List.map_cons, List.map_nil]
    decide +kernel
  have hDerived : derived.instanceLayout.offsets.take base.flattenedFields.length = [0, 4] := by
    simp only [derived, base, instanceLayout, flattenedFields, flags, fieldLayouts,
      layout_primitive, List.map_cons, List.map_nil, List.append_nil]
    decide +kernel
  refine ⟨?_, ?_⟩
  · refine ⟨0, 8, _, [.classType ⟨⟨0, 0, "B", 0, default⟩, Flags.packed, [], none⟩ fields none],
      .classType ⟨⟨0, 1, "D", 0, default⟩, Flags.none, [], none⟩ [] (some base), rfl, ?_⟩
    -- the names alone tell the two requests apart
    have hKey : (Request.ofClass ⟨0, 1, "D", 0, default⟩ Flags.none (some base) [] ==
        Request.ofClass ⟨0, 0, "B", 0, default⟩ Flags.packed none fields) = false := by
      rw [beq_eq_false_iff_ne]
      intro hEq
      have hHead : (Nat.toDigits 10 1).head?.getD '|' = '0' := by
        simpa using congrArg (fun s => s.toList.head?) (Request.classType.inj hEq)
      exact absurd hHead (by decide)
    simp only [Registry.run, List.foldl_cons, List.foldl_nil, Registry.call, Registry.classType,
      Registry.obtain, Registry.find?, List.lookup_nil, List.nil_append, List.lookup_cons, hKey]
    rfl
  · rw [hBase, hDerived]
    decide +kernel

end Ty

end SemanticCore
