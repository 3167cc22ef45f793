import SemanticCore.Text.Hash

/-!
# Primitive types

Integers of five widths with and without sign, floats of two widths, and four types without
parameters. Every registry shares them; their numbers lie below `Primitive.reserved`.
-/

namespace SemanticCore

/-- The widths of integers. -/
inductive IntegerWidth where
  | w8
  | w16
  | w32
  | w64
  | w128
  deriving DecidableEq, Repr, Inhabited

namespace IntegerWidth

/-- The widths, narrowest first. -/
def all : List IntegerWidth := [.w8, .w16, .w32, .w64, .w128]

/-- The place of a width among all. -/
def rank : IntegerWidth → Nat
  | .w8 => 0
  | .w16 => 1
  | .w32 => 2
  | .w64 => 3
  | .w128 => 4

/-- How many bits a width has. -/
def bits : IntegerWidth → Nat
  | .w8 => 8
  | .w16 => 16
  | .w32 => 32
  | .w64 => 64
  | .w128 => 128

end IntegerWidth

/-- An integer type: its sign and its width. -/
structure IntegerKind where
  signed : Bool
  width : IntegerWidth
  deriving DecidableEq, Repr, Inhabited

namespace IntegerKind

/-- The integer types of one sign, narrowest first. -/
def ladder (signed : Bool) : List IntegerKind := IntegerWidth.all.map (⟨signed, ·⟩)

/-- The kinds of integers, the signed ones first. -/
def all : List IntegerKind := ladder true ++ ladder false

/-- How many bits an integer of a kind has. -/
def bits (k : IntegerKind) : Nat := k.width.bits

/-- The name of a kind of integers. -/
def name (k : IntegerKind) : String :=
  let digits := match k.width with
    | .w8 => "8"
    | .w16 => "16"
    | .w32 => "32"
    | .w64 => "64"
    | .w128 => "128"
  (if k.signed then "i" else "u") ++ digits

/-- The kind of integers of a name. -/
def ofName? (s : String) : Option IntegerKind := all.find? (·.name == s)

end IntegerKind

/-- The kinds of floating-point numbers. -/
inductive FloatKind where
  | f32
  | f64
  deriving DecidableEq, Repr, Inhabited

namespace FloatKind

/-- How many bits a floating-point number of a kind has. -/
def bits : FloatKind → Nat
  | .f32 => 32
  | .f64 => 64

/-- The name of a kind of floating-point numbers. -/
def name : FloatKind → String
  | .f32 => "f32"
  | .f64 => "f64"

end FloatKind

/-- The types that every registry has. -/
inductive Primitive where
  | integer (kind : IntegerKind)
  | float (kind : FloatKind)
  | bool
  | char
  | void
  | auto
  deriving DecidableEq, Repr, Inhabited

namespace Primitive

/-- The primitives, in order of their numbers. -/
def all : List Primitive :=
  IntegerKind.all.map .integer ++ [.float .f32, .float .f64, .bool, .char, .void, .auto]

/-- The name of a primitive. -/
def name : Primitive → String
  | .integer k => k.name
  | .float k => k.name
  | .bool => "bool"
  | .char => "char"
  | .void => "void"
  | .auto => "auto"

/-- The primitive of a name. -/
def ofName? (s : String) : Option Primitive := all.find? (·.name == s)

/-- How many numbers are kept for primitive types. -/
def reserved : Nat := 64

/-- The number of a primitive, its place among all. -/
def id : Primitive → Nat
  | .integer k => (if k.signed then 0 else 5) + k.width.rank
  | .float .f32 => 10
  | .float .f64 => 11
  | .bool => 12
  | .char => 13
  | .void => 14
  | .auto => 15

/-- The size of a value in bytes. A type that is not known yet has none. -/
def size : Primitive → Nat
  | .integer k => k.bits / 8
  | .float k => k.bits / 8
  | .bool => 1
  | .char => 4
  | .void => 0
  | .auto => 0

/-- The alignment of a value: its size, but at least one. -/
def alignment (p : Primitive) : Nat := max p.size 1

/-- The hash of a primitive type: that of its name. -/
def hash (p : Primitive) : UInt32 := Hash.ofText p.name

end Primitive

end SemanticCore
