import SemanticCore.Text.Hash

/-!
# Kinds of types

Each kind has a name; the hash of the name is where the hashes of the composites of the kind begin.
-/

namespace SemanticCore

/-- The kinds of types. -/
inductive TypeKind where
  | auto
  | integer
  | float
  | bool
  | char
  | void
  | array
  | tuple
  | union
  | function
  | pointer
  | reference
  | struct
  | classKind
  deriving DecidableEq, Repr, Inhabited

namespace TypeKind

/-- The name of a kind. -/
def name : TypeKind → String
  | .auto => "auto"
  | .integer => "integer"
  | .float => "float"
  | .bool => "bool"
  | .char => "char"
  | .void => "void"
  | .array => "array"
  | .tuple => "tuple"
  | .union => "union"
  | .function => "function"
  | .pointer => "pointer"
  | .reference => "reference"
  | .struct => "struct"
  | .classKind => "class"

/-- The hash with which a kind of composites begins. -/
def seed (k : TypeKind) : UInt32 := Hash.ofText k.name

end TypeKind

end SemanticCore
