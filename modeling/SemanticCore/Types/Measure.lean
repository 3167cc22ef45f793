import SemanticCore.Types.Basic

/-!
# Sizes and offsets

How many bytes a value takes up and where the members of tuples, structs and objects lie.

* `Ty.size`, `Ty.alignment`: the measures of a value.
* `Ty.offsets`: the offsets of the members of a tuple or a struct.
* `Ty.instanceLayout`: the layout of the object that a class refers to.
-/

namespace SemanticCore.Ty

/-- The layouts of values of some types. -/
def layouts (types : List Ty) : List Layout := types.map layout

/-- The layouts of the values of some fields. -/
def fieldLayouts (fields : List Field) : List Layout := fields.map fun f => f.2.layout

theorem map_attach_fields (fs : List Field) :
    (fs.attach.map fun f => f.1.2.layout) = fieldLayouts fs := by
  rw [fieldLayouts, List.attach_map_val (f := fun f : Field => f.2.layout)]

attribute [local simp] layout

@[simp]
theorem layout_primitive (p : Primitive) :
    (primitive p).layout = ⟨.ofNat p.size, .ofNat p.alignment⟩ := by
  simp

@[simp]
theorem layout_array (o : Origin) (e : Ty) (n : Nat) :
    (array o e n).layout = .array e.layout (.ofNat n) (.ofNat o.pointerSize.bytes) := by
  simp

@[simp]
theorem layout_tuple (o : Origin) (es : List Ty) :
    (tuple o es).layout = (RecordLayout.of (layouts es) false).toLayout := by
  simp [layouts]

@[simp]
theorem layout_union (o : Origin) (vs : List Ty) :
    (union o vs).layout = .union (layouts vs) := by
  simp [layouts]

@[simp]
theorem layout_function (o : Origin) (ps : List Ty) (r : Ty) (f : Flags) :
    (function o ps r f).layout = .ofPointer o.pointerSize := by
  simp

@[simp]
theorem layout_pointer (o : Origin) (t : Ty) :
    (pointer o t).layout = .ofPointer o.pointerSize := by
  simp

@[simp]
theorem layout_reference (o : Origin) (t : Ty) :
    (reference o t).layout = .ofPointer o.pointerSize := by
  simp

@[simp]
theorem layout_structType (o : Origin) (h : RecordHead) (fs : List Field) :
    (structType o h fs).layout =
      (RecordLayout.ofFields (fieldLayouts fs) h.flags.isPacked).toLayout := by
  simp [map_attach_fields]

@[simp]
theorem layout_classType (o : Origin) (h : RecordHead) (fs : List Field) (b : Option Ty) :
    (classType o h fs b).layout = .ofPointer o.pointerSize := by
  simp

/-- The size of a value. -/
def size (t : Ty) : Number := t.layout.size

/-- The alignment of a value. -/
def alignment (t : Ty) : Number := t.layout.alignment

/-- The layout of the object that a class refers to: inherited fields first. The flags of the class
itself decide on packing. -/
def instanceLayout (t : Ty) : RecordLayout :=
  .ofFields (fieldLayouts t.flattenedFields) t.flags.isPacked

/-- The offsets of the members of a tuple or a struct. -/
def offsets : Ty → List Number
  | .tuple _ es => (RecordLayout.of (layouts es) false).offsets
  | .structType _ h fs => (RecordLayout.ofFields (fieldLayouts fs) h.flags.isPacked).offsets
  | _ => []

end SemanticCore.Ty
