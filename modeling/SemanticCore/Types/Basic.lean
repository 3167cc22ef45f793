import SemanticCore.Arena.Pool
import SemanticCore.Interner.Basic
import SemanticCore.Syntax.Flags
import SemanticCore.Types.Kind
import SemanticCore.Types.Layout
import SemanticCore.Types.Primitive

/-!
# Types

A type is a primitive or is composed of other types. A composite carries its origin, the registry
that made it and its number there, so that two types are the same object exactly when they are
equal. Which composites exist is the matter of the registries.

The hash and the layout of a type are kept with it: they are worked out once, from those of its
parts, when the type is made. So a part that occurs many times is not gone through each time.

* `Ty`: the types.
* `Ty.hash`: the hash, which mixes those of the parts, in order, into a seed for the kind. It does
  not depend on where a type comes from, nor on methods and declarations.
* `Ty.layout`: the size and the alignment of a value.
* `Ty.flattenedFields`: the fields of a class after those that it inherits.
-/

namespace SemanticCore

/-- The number by which a node of a tree is known. -/
abbrev NodeId := Handle

/-- Where a composite comes from: a registry with its pointer size, and the number it gave. -/
structure Origin where
  registry : Nat
  pointerSize : PointerSize
  id : Nat
  deriving DecidableEq, Repr, Inhabited

/-- What a type is told from others by. -/
inductive TypeKey where
  | primitive (p : Primitive)
  | composite (origin : Origin)
  deriving DecidableEq, Repr, Inhabited

/-- The number of a type; it differs from all others of one registry. -/
def TypeKey.id : TypeKey → Nat
  | .primitive p => p.id
  | .composite o => o.id

/-- A method of a record: its name, its type and the node that declares it. -/
structure Method where
  name : Name
  signature : TypeKey
  declaration : Option NodeId
  deriving DecidableEq, Repr, Inhabited

/-- What a record is apart from its fields. An empty name marks a record without a name. -/
structure RecordHead where
  name : Name
  flags : Flags
  methods : List Method
  declaration : Option NodeId
  deriving DecidableEq, Repr, Inhabited

theorem sizeOf_snd_lt_of_mem {α β : Type} [SizeOf α] [SizeOf β] {p : α × β} {ps : List (α × β)}
    (h : p ∈ ps) : sizeOf p.2 < sizeOf ps := by
  have := List.sizeOf_lt_of_mem h
  cases p
  simp at *
  omega

/-- A type. An array of length zero is one of any length; a class is a record known by reference,
with at most one base class. -/
inductive Ty where
  | primitive (p : Primitive)
  | array (origin : Origin) (element : Ty) (length : Nat)
  | tuple (origin : Origin) (elements : List Ty)
  | union (origin : Origin) (variants : List Ty)
  | function (origin : Origin) (params : List Ty) (result : Ty) (flags : Flags)
  | pointer (origin : Origin) (pointee : Ty)
  | reference (origin : Origin) (referent : Ty)
  | structType (origin : Origin) (head : RecordHead) (fields : List (Name × Ty))
  | classType (origin : Origin) (head : RecordHead) (fields : List (Name × Ty)) (base : Option Ty)
with
  /-- The hash of a type. -/
  @[computed_field] hash : Ty → UInt32
    | .primitive p => p.hash
    | .array _ e n => Hash.mix (Hash.mixWord TypeKind.array.seed (hash e)) (.ofNat n)
    | .tuple _ es => Hash.mixWords TypeKind.tuple.seed (es.map hash)
    | .union _ vs => Hash.mixWords TypeKind.union.seed (vs.map hash)
    | .function _ ps r f =>
      Hash.mix (Hash.mixWord (Hash.mixWords TypeKind.function.seed (ps.map hash)) (hash r)) f
    | .pointer _ t => Hash.mixWord TypeKind.pointer.seed (hash t)
    | .reference _ t => Hash.mixWord TypeKind.reference.seed (hash t)
    | .structType _ h fs =>
      Hash.mixWords (Hash.mix (Hash.mixWord TypeKind.struct.seed h.name.hash) h.flags)
        (fs.attach.flatMap fun ⟨f, m⟩ => have := sizeOf_snd_lt_of_mem m; [f.1.hash, hash f.2])
    | .classType _ h fs b =>
      Hash.mixWords
        (Hash.mixWord (Hash.mix (Hash.mixWord TypeKind.classKind.seed h.name.hash) h.flags)
          (match b with
            | none => 0
            | some t => hash t))
        (fs.attach.flatMap fun ⟨f, m⟩ => have := sizeOf_snd_lt_of_mem m; [f.1.hash, hash f.2])
  /-- The size and the alignment of a value of a type. -/
  @[computed_field] layout : Ty → Layout
    | .primitive p => ⟨.ofNat p.size, .ofNat p.alignment⟩
    | .array o e n => .array (layout e) (.ofNat n) (.ofNat o.pointerSize.bytes)
    | .tuple _ es => (RecordLayout.of (es.map layout) false).toLayout
    | .union _ vs => .union (vs.map layout)
    | .function o _ _ _ => .ofPointer o.pointerSize
    | .pointer o _ => .ofPointer o.pointerSize
    | .reference o _ => .ofPointer o.pointerSize
    | .structType _ h fs =>
      (RecordLayout.ofFields
        (fs.attach.map fun ⟨f, m⟩ => have := sizeOf_snd_lt_of_mem m; layout f.2)
        h.flags.isPacked).toLayout
    | .classType o _ _ _ => .ofPointer o.pointerSize
  deriving Inhabited

/-- A field of a record: its name and its type. -/
abbrev Field := Name × Ty

namespace Ty

/-! ## Numbers -/

/-- What a type is told from others by: which primitive it is, or where it comes from. -/
def key : Ty → TypeKey
  | .primitive p => .primitive p
  | .array o _ _ | .tuple o _ | .union o _ | .function o _ _ _ | .pointer o _ | .reference o _
  | .structType o _ _ | .classType o _ _ _ => .composite o

/-- The number of a type in its registry. -/
def id (t : Ty) : Nat := t.key.id

/-! ## Parts -/

/-- The kind of a type. -/
def kind : Ty → TypeKind
  | .primitive (.integer _) => .integer
  | .primitive (.float _) => .float
  | .primitive .bool => .bool
  | .primitive .char => .char
  | .primitive .void => .void
  | .primitive .auto => .auto
  | .array .. => .array
  | .tuple .. => .tuple
  | .union .. => .union
  | .function .. => .function
  | .pointer .. => .pointer
  | .reference .. => .reference
  | .structType .. => .struct
  | .classType .. => .classKind

/-- The flags of a type; only functions and records have any. -/
def flags : Ty → Flags
  | .function _ _ _ f => f
  | .structType _ h _ | .classType _ h _ _ => h.flags
  | _ => Flags.none

/-- The record that a type is, without its fields. -/
def head? : Ty → Option RecordHead
  | .structType _ h _ | .classType _ h _ _ => some h
  | _ => none

/-- The fields that a record declares itself. -/
def fields : Ty → List Field
  | .structType _ _ fs | .classType _ _ fs _ => fs
  | _ => []

/-- The base class of a class. -/
def base? : Ty → Option Ty
  | .classType _ _ _ b => b
  | _ => none

/-- Whether a type is that of arrays of any length. -/
def isDynamicArray : Ty → Bool
  | .array _ _ n => n == 0
  | _ => false

/-- The fields of a class: those of its base class, then its own. Neither ever changes, so they are
the same whenever they are put together. -/
def flattenedFields : Ty → List Field
  | .classType _ _ fs (some b) => flattenedFields b ++ fs
  | .classType _ _ fs none => fs
  | _ => []
termination_by structural t => t

/-- A type without the references around it. -/
def stripReferences : Ty → Ty
  | .reference _ t => stripReferences t
  | t => t
termination_by structural t => t

end Ty

end SemanticCore
