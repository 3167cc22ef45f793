import SemanticCore.Types.Record

/-!
# Families of types

Predicates that hold of several kinds of types, or of some types of a kind.
-/

namespace SemanticCore

namespace Ty

/-- Whether a type is one of integers or floating-point numbers. -/
def isNumeric (t : Ty) : Bool := t.kind == .integer || t.kind == .float

/-- Whether a type has no parts and belongs to every registry. -/
def isPrimitive : Ty → Bool
  | .primitive _ => true
  | _ => false

/-- Whether a type was made by a registry. -/
def isComposite (t : Ty) : Bool := !t.isPrimitive

/-- Whether a type is a struct or a class. -/
def isRecord (t : Ty) : Bool := t.head?.isSome

/-- Whether a type is copied with its value; a class is not. -/
def isValue (t : Ty) : Bool := !t.isClass

/-- Whether a type is a struct without gaps between its fields. -/
def isPackedStruct (t : Ty) : Bool := t.kind == .struct && t.flags.isPacked

/-- Whether a type is a record without a name. -/
def isAnonymousRecord (t : Ty) : Bool := t.head?.any (·.name.isEmpty)

end Ty

end SemanticCore
