import SemanticCore.Arena.Alignment

/-!
# Memory layout

The members of a record follow one another, each at the next multiple of its alignment; the record
is aligned like its strictest member and its size is a multiple of that. A packed record has no
padding and alignment one. Sizes are computed in double precision.

* `RecordLayout.of`: the layout of a record from the layouts of its members.
* `Layout.array`, `Layout.union`: the layouts of arrays and unions.
-/

namespace SemanticCore

/-- The sizes that pointers can have. -/
inductive PointerSize where
  | four
  | eight
  deriving DecidableEq, Repr, Inhabited

/-- The size of a pointer in bytes. -/
def PointerSize.bytes : PointerSize → Nat
  | .four => 4
  | .eight => 8

/-- The size and the alignment of a value. -/
structure Layout where
  size : Number
  alignment : Number
  deriving DecidableEq, Repr, Inhabited

/-- The layout of a record: the offsets of its members, its size and its alignment. -/
structure RecordLayout where
  offsets : List Number
  size : Number
  alignment : Number
  deriving DecidableEq, Repr, Inhabited

namespace RecordLayout

/-- Lays out members from an offset on, in a record that has an alignment already. -/
def layOut (packed : Bool) (offset alignment : Number) : List Layout → RecordLayout
  | [] => ⟨[], offset.alignUp alignment, alignment⟩
  | m :: ms =>
    let step := if packed then 1 else m.alignment
    let start := offset.alignUp step
    let rest := layOut packed (start + m.size) (alignment.max step) ms
    { rest with offsets := start :: rest.offsets }

/-- The layout of a record with at least one member; without any it has size zero. -/
def of (members : List Layout) (packed : Bool) : RecordLayout := layOut packed 0 1 members

/-- The layout of a struct or an object; without members it still takes up one byte. -/
def ofFields (members : List Layout) (packed : Bool) : RecordLayout :=
  if members.isEmpty then ⟨[], 1, 1⟩ else of members packed

/-- The size and the alignment of a record. -/
def toLayout (l : RecordLayout) : Layout := ⟨l.size, l.alignment⟩

end RecordLayout

namespace Layout

/-- The layout of a union: the greatest size and the strictest alignment of its variants. -/
def union (variants : List Layout) : Layout :=
  variants.foldl (fun l v => ⟨l.size.max v.size, l.alignment.max v.alignment⟩) ⟨0, 1⟩

/-- The layout of an array: its elements one after another, or a pointer if the length is zero. -/
def array (element : Layout) (length pointerSize : Number) : Layout :=
  if length = 0 then ⟨pointerSize, pointerSize⟩ else ⟨element.size * length, element.alignment⟩

/-- The layout of a pointer, which is aligned to its size. -/
def ofPointer (p : PointerSize) : Layout := ⟨.ofNat p.bytes, .ofNat p.bytes⟩

end Layout

end SemanticCore
