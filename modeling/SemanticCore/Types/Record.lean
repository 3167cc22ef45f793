import SemanticCore.Types.Identity
import SemanticCore.Types.Measure

/-!
# Members of records

Fields are found by name: `fieldIndex?` looks at the fields that a record declares, `fieldType?`
and `flattenedIndex?` at those that a class inherits, too. Methods are found by name and, if one is
given, by signature, in the record and then along its base classes.
-/

namespace SemanticCore.Ty

/-- Whether a type is a class. -/
def isClass : Ty → Bool
  | .classType .. => true
  | _ => false

/-- Whether a class derives from another through its chain of base classes. -/
def derivesFrom : Ty → Ty → Bool
  | .classType _ _ _ (some b), base => b.isSame base || derivesFrom b base
  | _, _ => false
termination_by structural t => t

/-- The place of a name among the fields that a record declares itself. -/
def fieldIndex? (t : Ty) (name : Name) : Option Nat := t.fields.findIdx? (·.1 == name)

/-- The place of a name among the fields of a class, the inherited ones first. -/
def flattenedIndex? (t : Ty) (name : Name) : Option Nat :=
  t.flattenedFields.findIdx? (·.1 == name)

/-- The fields of a record in which a name is looked up. -/
def visibleFields (t : Ty) : List Field := if t.isClass then t.flattenedFields else t.fields

/-- The type of the first field with a name. -/
def fieldType? (t : Ty) (name : Name) : Option Ty :=
  (t.visibleFields.find? (·.1 == name)).map (·.2)

/-- Whether there is a field with a name. -/
def hasField (t : Ty) (name : Name) : Bool := (t.fieldType? name).isSome

/-- The offset of the member at a place. -/
def offsetAt? (t : Ty) (index : Number) : Option Number := Number.entry? t.offsets index

/-- The offset of the field with a name. -/
def fieldOffset? (t : Ty) (name : Name) : Option Number :=
  (t.fieldIndex? name).bind fun i => t.offsets[i]?

/-- The offset of the field at a place in the object of a class. -/
def flattenedOffsetAt? (t : Ty) (index : Number) : Option Number :=
  Number.entry? t.instanceLayout.offsets index

/-- The offset of the field with a name in the object of a class. -/
def flattenedOffset? (t : Ty) (name : Name) : Option Number :=
  (t.flattenedIndex? name).bind fun i => t.instanceLayout.offsets[i]?

/-- Whether a method has a name and, if one is given, a signature. -/
def methodFits (m : Method) (name : Name) (signature : Option Ty) : Bool :=
  m.name == name && signature.all fun s => m.signature == s.key

/-- The methods that a record declares itself. -/
def methods (t : Ty) : List Method := (t.head?.map (·.methods)).getD []

/-- The method of a record with a name and, if one is given, a signature. A class without such a
method has that of its base class. -/
def findMethod? (t : Ty) (name : Name) (signature : Option Ty) : Option Method :=
  match t with
  | .structType _ h _ => h.methods.find? (methodFits · name signature)
  | .classType _ h _ none => h.methods.find? (methodFits · name signature)
  | .classType _ h _ (some b) =>
    match h.methods.find? (methodFits · name signature) with
    | some m => some m
    | none => findMethod? b name signature
  | _ => none
termination_by structural t

/-- Whether there is a method with a name. -/
def hasMethod (t : Ty) (name : Name) : Bool := (t.findMethod? name none).isSome

end SemanticCore.Ty
