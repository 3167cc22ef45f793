import SemanticCore.Types.Basic

/-!
# Hashes of types

What the hash of a type is, said of the hashes of its parts: one equation for each kind.
-/

namespace SemanticCore.Ty

/-- The hashes of names and types of fields, in order. -/
def fieldHashes (fields : List Field) : List UInt32 := fields.flatMap fun f => [f.1.hash, f.2.hash]

/-- The hash of a base class; zero if there is none. -/
def baseHash : Option Ty → UInt32
  | none => 0
  | some t => t.hash

theorem flatMap_attach_fields (fs : List Field) :
    (fs.attach.flatMap fun f => [f.1.1.hash, f.1.2.hash]) = fieldHashes fs := by
  rw [fieldHashes, ← List.flatMap_map Subtype.val fun f : Field => [f.1.hash, f.2.hash],
    List.attach_map_subtype_val]

attribute [local simp] hash

@[simp]
theorem hash_primitive (p : Primitive) : (primitive p).hash = p.hash := by
  simp

@[simp]
theorem hash_array (o : Origin) (e : Ty) (n : Nat) :
    (array o e n).hash = Hash.mix (Hash.mixWord TypeKind.array.seed e.hash) (.ofNat n) := by
  simp

@[simp]
theorem hash_tuple (o : Origin) (es : List Ty) :
    (tuple o es).hash = Hash.mixWords TypeKind.tuple.seed (es.map hash) := by
  simp

@[simp]
theorem hash_union (o : Origin) (vs : List Ty) :
    (union o vs).hash = Hash.mixWords TypeKind.union.seed (vs.map hash) := by
  simp

@[simp]
theorem hash_function (o : Origin) (ps : List Ty) (r : Ty) (f : Flags) :
    (function o ps r f).hash =
      Hash.mix (Hash.mixWord (Hash.mixWords TypeKind.function.seed (ps.map hash)) r.hash) f := by
  simp

@[simp]
theorem hash_pointer (o : Origin) (t : Ty) :
    (pointer o t).hash = Hash.mixWord TypeKind.pointer.seed t.hash := by
  simp

@[simp]
theorem hash_reference (o : Origin) (t : Ty) :
    (reference o t).hash = Hash.mixWord TypeKind.reference.seed t.hash := by
  simp

@[simp]
theorem hash_structType (o : Origin) (h : RecordHead) (fs : List Field) :
    (structType o h fs).hash =
      Hash.mixWords (Hash.mix (Hash.mixWord TypeKind.struct.seed h.name.hash) h.flags)
        (fieldHashes fs) := by
  simp [flatMap_attach_fields]

@[simp]
theorem hash_classType (o : Origin) (h : RecordHead) (fs : List Field) (b : Option Ty) :
    (classType o h fs b).hash =
      Hash.mixWords
        (Hash.mixWord (Hash.mix (Hash.mixWord TypeKind.classKind.seed h.name.hash) h.flags)
          (baseHash b))
        (fieldHashes fs) := by
  cases b <;> simp [flatMap_attach_fields, baseHash]

end SemanticCore.Ty
