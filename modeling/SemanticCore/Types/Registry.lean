import SemanticCore.Number.Decimal
import SemanticCore.Types.Basic

/-!
# The registry of types

A registry makes composite types, each of them once: a request is known by its kind and a key, the
text of the numbers of its parts in order, and a request that was made before gets the type that it
got then. Methods and declarations are those of the first request.

* `Request.ofArray`, `Request.ofTuple`, …: the keys.
* `Registry.obtain`: the type of a request.
* `Registry.array`, `Registry.tuple`, …: the requests.
* `Registry.clear`: forgets all types; the numbers go on.
-/

namespace SemanticCore

/-- What a composite is kept under in a registry. -/
inductive Request where
  | array (key : String)
  | tuple (key : String)
  | union (key : String)
  | function (key : String)
  | pointer (pointee : Nat)
  | reference (referent : Nat)
  | structType (key : String)
  | classType (key : String)
  deriving DecidableEq, Repr

namespace Request

/-! ## Keys -/

/-- The numbers of types between commas. -/
def idList (types : List Ty) : String := ",".intercalate (types.map fun t => t.id.repr)

/-- The numbers of the name and of the type of a field. -/
def fieldPair (f : Field) : String := f.1.id.repr ++ "=" ++ f.2.id.repr

/-- The numbers of fields between commas. -/
def fieldList (fields : List Field) : String := ",".intercalate (fields.map fieldPair)

/-- The number of a base class, or a dash. -/
def baseText (base : Option Ty) : String := (base.map fun t => t.id.repr).getD "-"

/-- The request for an array. -/
def ofArray (element : Ty) (length : Nat) : Request :=
  .array (element.id.repr ++ ":" ++ (Number.ofNat length).text)

/-- The request for a tuple. -/
def ofTuple (elements : List Ty) : Request := .tuple (idList elements)

/-- The request for a union. -/
def ofUnion (variants : List Ty) : Request := .union (idList variants)

/-- The request for a function. -/
def ofFunction (params : List Ty) (result : Ty) (flags : Flags) : Request :=
  .function (Number.text flags ++ "|" ++ idList params ++ "|" ++ result.id.repr)

/-- The request for a pointer. -/
def ofPointer (pointee : Ty) : Request := .pointer pointee.id

/-- The request for a reference. -/
def ofReference (referent : Ty) : Request := .reference referent.id

/-- The request for a struct. Methods and declarations do not count. -/
def ofStruct (name : Name) (flags : Flags) (fields : List Field) : Request :=
  .structType (name.id.repr ++ "|" ++ Number.text flags ++ "|" ++ fieldList fields)

/-- The request for a class. Methods and declarations do not count. -/
def ofClass (name : Name) (flags : Flags) (base : Option Ty) (fields : List Field) : Request :=
  .classType
    (name.id.repr ++ "|" ++ Number.text flags ++ "|" ++ baseText base ++ "|" ++ fieldList fields)

end Request

/-- Why a registry or an array type cannot be had. -/
inductive RegistryError where
  | pointerSize (given : Number)
  | arrayLength (given : Number)
  deriving DecidableEq, Repr

/-- What a refusal says. -/
def RegistryError.message : RegistryError → String
  | .pointerSize n => "unsupported pointer size: " ++ n.text
  | .arrayLength n => "invalid array length: " ++ n.text

/-- A registry: what sets its types apart from those of other registries, the number of the next
type, and the types made so far. -/
structure Registry where
  serial : Nat
  pointerSize : PointerSize
  nextId : Nat := Primitive.reserved
  table : List (Request × Ty) := []
  deriving Inhabited

namespace Registry

/-- The pointer size of a registry for which none is given. -/
def defaultPointerSize : Number := 8

/-- A new registry. Pointers have four or eight bytes. -/
def create (serial : Nat) (pointerSize : Number) : Except RegistryError Registry :=
  if pointerSize = 4 then .ok { serial, pointerSize := .four }
  else if pointerSize = 8 then .ok { serial, pointerSize := .eight }
  else .error (.pointerSize pointerSize)

/-- The type that was made for a request. -/
def find? (r : Registry) (q : Request) : Option Ty := r.table.lookup q

/-- The type of a request, which is made with the next number if there is none yet. -/
def obtain (r : Registry) (q : Request) (make : Origin → Ty) : Ty × Registry :=
  match r.find? q with
  | some t => (t, r)
  | none =>
    let t := make ⟨r.serial, r.pointerSize, r.nextId⟩
    (t, { r with nextId := r.nextId + 1, table := r.table ++ [(q, t)] })

/-! ## Requests -/

/-- The array of a length; the length must be a natural number. -/
def array (r : Registry) (element : Ty) (length : Number) : Except RegistryError Ty × Registry :=
  match length.toNat? with
  | some n =>
    let (t, r) := r.obtain (.ofArray element n) fun o => .array o element n
    (.ok t, r)
  | none => (.error (.arrayLength length), r)

/-- The tuple of some elements; there is none of nothing. -/
def tuple (r : Registry) (elements : List Ty) : Option Ty × Registry :=
  if elements.isEmpty then (none, r)
  else
    let (t, r) := r.obtain (.ofTuple elements) fun o => .tuple o elements
    (some t, r)

/-- The union of some variants; there is none of nothing. -/
def union (r : Registry) (variants : List Ty) : Option Ty × Registry :=
  if variants.isEmpty then (none, r)
  else
    let (t, r) := r.obtain (.ofUnion variants) fun o => .union o variants
    (some t, r)

/-- The type of functions from some parameters to a result. -/
def function (r : Registry) (params : List Ty) (result : Ty) (flags : Flags) : Ty × Registry :=
  r.obtain (.ofFunction params result flags) fun o => .function o params result flags

/-- The pointer to a type. There is no pointer to a reference; it points to what is referred to. -/
def pointer (r : Registry) : Option Ty → Option Ty × Registry
  | none => (none, r)
  | some pointee =>
    let target := pointee.stripReferences
    let (t, r) := r.obtain (.ofPointer target) fun o => .pointer o target
    (some t, r)

/-- The reference to a type. There is none to a pointer. -/
def reference (r : Registry) : Option Ty → Option Ty × Registry
  | none => (none, r)
  | some (.pointer ..) => (none, r)
  | some referent =>
    let (t, r) := r.obtain (.ofReference referent) fun o => .reference o referent
    (some t, r)

/-- The struct with a name, flags and fields. -/
def structType (r : Registry) (head : RecordHead) (fields : List Field) : Ty × Registry :=
  r.obtain (.ofStruct head.name head.flags fields) fun o => .structType o head fields

/-- The class with a name, flags, a base class and fields of its own. -/
def classType (r : Registry) (head : RecordHead) (fields : List Field) (base : Option Ty) :
    Ty × Registry :=
  r.obtain (.ofClass head.name head.flags base fields) fun o => .classType o head fields base

/-! ## The whole -/

/-- How many types were made since the registry was cleared. -/
def count (r : Registry) : Nat := r.table.length

/-- Forgets the types. The next ones get other numbers than those. -/
def clear (r : Registry) : Registry := { r with table := [] }

end Registry

end SemanticCore
