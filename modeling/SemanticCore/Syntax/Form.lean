import SemanticCore.Number.Bits
import SemanticCore.Syntax.Tree

/-!
# Forms of new nodes

A form says what a new node is made of: its kind, its payload and a slot for each child. There is a
form for each construct of the language (`Form.ifStmt`, `Form.funcDecl`, …), and one way to build
them all (`Form.build`): the slots are filled, the node is made, and what the slots hold goes under
it in order.
-/

namespace SemanticCore

/-- A child of a new node. -/
inductive Slot where
  /-- The child; left out if absent. -/
  | given (child : Option NodeId)
  /-- The child; an absent one becomes a new no-op, so that the others keep their places. -/
  | filled (child : Option NodeId)
  /-- A new segment of a path. -/
  | segment (name : Name)
  deriving DecidableEq, Repr, Inhabited

/-- What a new node is made of. In all forms but one the slots are filled before the node is
made. -/
structure Form where
  kind : NodeKind
  payload : Payload := .plain
  slots : List Slot := []
  nodeFirst : Bool := false
  flags : Flags := Flags.none
  deriving DecidableEq, Repr, Inhabited

namespace Form

/-! ## Constructs -/

/-- A slot for each child of a list. -/
def each (children : List (Option NodeId)) : List Slot := children.map .given

/-- A node of a kind given by its name. -/
def plain (kind : String) (children : List (Option NodeId)) : Except SyntaxError Form :=
  match NodeKind.ofName? kind with
  | some kind => .ok { kind, slots := each children }
  | none => .error (.unknownKind kind)

/-- A named node of a kind given by its name. -/
def named (kind : String) (name : Name) (children : List (Option NodeId)) :
    Except SyntaxError Form :=
  match NodeKind.ofName? kind with
  | some kind => .ok { kind, payload := .name name, slots := each children }
  | none => .error (.unknownKind kind)

/-- A whole unit. -/
def program (items : List (Option NodeId)) : Form := { kind := .program, slots := each items }

/-- What stands where nothing was written. -/
def noop : Form := { kind := .noop }

/-- A truth value. -/
def boolLiteral (value : Bool) : Form := { kind := .boolLiteral, payload := .bool value }

/-- An integer of any size. -/
def intLiteral (value : Int) : Form := { kind := .intLiteral, payload := .integer value }

/-- An integer that is given as a number; refused if it is none. -/
def intLiteralOf (value : Number) : Except SyntaxError Form :=
  match value.toInt? with
  | some i => .ok (intLiteral i)
  | none => .error (.notIntegral value)

/-- A floating-point number by its bits. -/
def floatLiteral (bits : UInt64) : Form :=
  { kind := .floatLiteral, payload := .float (Number.canonicalBits bits) }

/-- A text. -/
def stringLiteral (value : Name) : Form := { kind := .stringLiteral, payload := .text value }

/-- A character by its code. -/
def charLiteral (code : Number) : Form := { kind := .charLiteral, payload := .char code }

/-- The first character of a text; of the empty text, the character with code zero. -/
def charLiteralOf (text : String) : Form :=
  charLiteral (.ofNat ((text.toList.head?.map Char.toNat).getD 0))

/-- The pointer to nothing. -/
def nullLiteral : Form := { kind := .nullLiteral }

/-- A name that is referred to. -/
def identifier (name : Name) : Form := { kind := .identifier, payload := .name name }

/-- A path with a segment for each name. -/
def path (segments : List Name) : Form :=
  { kind := .qualifiedPath, slots := segments.map .segment }

/-- A primitive type by its name. -/
def primitiveType (name : Name) : Form := { kind := .primitiveType, payload := .name name }

/-- An array type; size zero stands for any size. -/
def arrayType (element : Option NodeId) (size : Number) : Form :=
  { kind := .arrayType, payload := .arraySize size, slots := [.given element] }

/-- The type of tuples with some elements. -/
def tupleType (elements : List (Option NodeId)) : Form :=
  { kind := .tupleType, slots := each elements }

/-- The type of what is of one of some types. -/
def unionType (variants : List (Option NodeId)) : Form :=
  { kind := .unionType, slots := each variants }

/-- A function type: the parameters, then the result. -/
def functionType (params : List (Option NodeId)) (result : Option NodeId) : Form :=
  { kind := .functionType, slots := each params ++ [.given result] }

/-- The type of pointers to a type. -/
def pointerType (pointee : Option NodeId) : Form :=
  { kind := .pointerType, slots := [.given pointee] }

/-- The type of references to a type. -/
def referenceType (referent : Option NodeId) : Form :=
  { kind := .referenceType, slots := [.given referent] }

/-- The type of what is of a type or nothing. -/
def optionalType (inner : Option NodeId) : Form :=
  { kind := .optionalType, slots := [.given inner] }

/-- An operator before or after its operand. -/
def unary (operator : String) (operand : Option NodeId) (before : Bool) : Form :=
  { kind := .unaryExpr, payload := .unary operator before, slots := [.given operand] }

/-- An operator between its operands. -/
def binary (operator : String) (left right : Option NodeId) : Form :=
  { kind := .binaryExpr, payload := .operator operator, slots := [.given left, .given right] }

/-- A choice between two expressions. -/
def ternary (condition whenTrue whenFalse : Option NodeId) : Form :=
  { kind := .ternaryExpr, slots := [.given condition, .given whenTrue, .given whenFalse] }

/-- An assignment: the target, then the value. -/
def assign (operator : String) (target value : Option NodeId) : Form :=
  { kind := .assignmentExpr, payload := .operator operator
    slots := [.given target, .given value] }

/-- An expression in parentheses. -/
def group (inner : Option NodeId) : Form := { kind := .groupExpr, slots := [.given inner] }

/-- A cast: the value, then the type. -/
def cast (value target : Option NodeId) : Form :=
  { kind := .castExpr, slots := [.given value, .given target] }

/-- A call: what is called, then the arguments. -/
def call (callee : Option NodeId) (arguments : List (Option NodeId)) : Form :=
  { kind := .callExpr, slots := .given callee :: each arguments }

/-- An element of something. -/
def index (target place : Option NodeId) : Form :=
  { kind := .indexExpr, slots := [.given target, .given place] }

/-- An array by its elements. -/
def arrayExpr (elements : List (Option NodeId)) : Form :=
  { kind := .arrayExpr, slots := each elements }

/-- A tuple by its elements. -/
def tupleExpr (elements : List (Option NodeId)) : Form :=
  { kind := .tupleExpr, slots := each elements }

/-- A member of something by its name. -/
def member (target : Option NodeId) (name : Name) : Form :=
  { kind := .memberExpr, payload := .name name, slots := [.given target] }

/-- The value of a field in the expression of a record. -/
def fieldExpr (name : Name) (value : Option NodeId) : Form :=
  { kind := .fieldExpr, payload := .name name, slots := [.given value] }

/-- A struct value: its type, if given, then the fields. -/
def structExpr (type : Option NodeId) (fields : List (Option NodeId)) : Form :=
  { kind := .structExpr, slots := .filled type :: each fields }

/-- A range between two bounds, either of which may be absent. The node itself comes before the
no-ops that stand for absent bounds. -/
def range (first last : Option NodeId) (inclusive : Bool) : Form :=
  { kind := .rangeExpr, payload := .range inclusive, slots := [.filled first, .filled last]
    nodeFirst := true }

/-- A function value: the parameters, then the body. -/
def closure (params : List (Option NodeId)) (body : Option NodeId) : Form :=
  { kind := .closureExpr, slots := each params ++ [.given body] }

/-- An expression whose elements are spread out. -/
def spread (inner : Option NodeId) : Form := { kind := .spreadExpr, slots := [.given inner] }

/-- An expression as a statement. -/
def exprStmt (inner : Option NodeId) : Form := { kind := .exprStmt, slots := [.given inner] }

/-- Leaves a function, with a value if there is one. -/
def returnStmt (value : Option NodeId) : Form := { kind := .returnStmt, slots := [.given value] }

/-- Leaves a loop. -/
def breakStmt : Form := { kind := .breakStmt }

/-- Goes on with the next round of a loop. -/
def continueStmt : Form := { kind := .continueStmt }

/-- What is done when the block is left. -/
def deferStmt (body : Option NodeId) : Form := { kind := .deferStmt, slots := [.given body] }

/-- Statements in order. -/
def block (statements : List (Option NodeId)) : Form :=
  { kind := .blockStmt, slots := each statements }

/-- A choice between two statements, the second of which may be absent. -/
def ifStmt (condition whenTrue whenFalse : Option NodeId) : Form :=
  { kind := .ifStmt, slots := [.given condition, .given whenTrue, .filled whenFalse] }

/-- A loop with a condition. -/
def whileStmt (condition body : Option NodeId) : Form :=
  { kind := .whileStmt, slots := [.given condition, .given body] }

/-- A loop over values: the loop variable, the values, the body. -/
def forStmt (loop iterable body : Option NodeId) : Form :=
  { kind := .forStmt, slots := [.given loop, .given iterable, .given body] }

/-- A variable: its type and its first value, either of which may be absent. -/
def variableDecl (name : Name) (type init : Option NodeId) (flags : Flags) : Form :=
  { kind := .variableDeclaration, payload := .name name, slots := [.filled type, .filled init]
    flags }

/-- A parameter of a function. -/
def funcParam (name : Name) (type : Option NodeId) : Form :=
  { kind := .funcParamDeclaration, payload := .name name, slots := [.given type] }

/-- A function: the parameters, then the result type and the body, either of which may be
absent. -/
def funcDecl (name : Name) (params : List (Option NodeId)) (result body : Option NodeId) : Form :=
  { kind := .funcDeclaration, payload := .name name
    slots := each params ++ [.filled result, .filled body] }

/-- A field of a record: its type and its first value, either of which may be absent. -/
def fieldDecl (name : Name) (type init : Option NodeId) : Form :=
  { kind := .fieldDeclaration, payload := .name name, slots := [.filled type, .filled init] }

/-- A declaration of a struct. -/
def structDecl (name : Name) (members : List (Option NodeId)) : Form :=
  { kind := .structDeclaration, payload := .name name, slots := each members }

/-- A class: the base class, which may be absent, then the members. -/
def classDecl (name : Name) (base : Option NodeId) (members : List (Option NodeId)) : Form :=
  { kind := .classDeclaration, payload := .name name, slots := .filled base :: each members }

/-- A method, made like a function. -/
def methodDecl (name : Name) (params : List (Option NodeId)) (result body : Option NodeId) :
    Form :=
  { kind := .methodDeclaration, payload := .name name
    slots := each params ++ [.filled result, .filled body] }

/-- A declaration of an enumeration. -/
def enumDecl (name : Name) (options : List (Option NodeId)) : Form :=
  { kind := .enumDeclaration, payload := .name name, slots := each options }

/-- An option of an enumeration, with its value if there is one. -/
def enumOption (name : Name) (value : Option NodeId) : Form :=
  { kind := .enumOptionDeclaration, payload := .name name, slots := [.given value] }

/-- A declaration of a name for a type. -/
def typeDecl (name : Name) (aliased : Option NodeId) : Form :=
  { kind := .typeDeclaration, payload := .name name, slots := [.given aliased] }

/-- An import from a path, as a whole or by items. -/
def importDecl (path : Name) (localName : Option Name) (items : List (Option NodeId)) : Form :=
  { kind := .importDeclaration, payload := .importPath path localName, slots := each items }

/-- An item that is imported, by another name if one is given. -/
def importItem (name : Name) (localName : Option Name) : Form :=
  { kind := .importItem, payload := .importItem name localName }

/-- The name of the module that a unit is. -/
def moduleDecl (name : Name) : Form := { kind := .moduleDeclaration, payload := .name name }

/-- An attribute with its arguments. It is attached apart, as it is not a child. -/
def attributeUse (name : Name) (arguments : List (Option NodeId)) : Form :=
  { kind := .attributeTag, payload := .name name, slots := each arguments }

/-! ## Building -/

end Form

/-- Building nodes: what was built stays in the tree when a later step is refused. -/
abbrev Build := ExceptT SyntaxError (StateM Tree)

namespace Build

/-- A step that changes the tree, or is refused and leaves it as it is. -/
def edit {α : Type} (f : Tree → Except SyntaxError (α × Tree)) : Build α := fun t =>
  match f t with
  | .ok (a, t) => (.ok a, t)
  | .error e => (.error e, t)

/-- Makes a node. -/
def create (location : Location) (kind : NodeKind) (payload : Payload) : Build NodeId :=
  edit fun t => t.create location kind payload

/-- Puts a node after the children of another. -/
def addChild (parent : NodeId) (child : Option NodeId) : Build Unit :=
  edit fun t => return ((), ← t.addChild parent child)

end Build

/-- The child that a slot comes to; new nodes get the location of the node they are for. -/
def Slot.fill (location : Location) : Slot → Build (Option NodeId)
  | .given child => return child
  | .filled (some child) => return some child
  | .filled none => return some (← Build.create location .noop .plain)
  | .segment name => return some (← Build.create location .pathSegment (.name name))

namespace Form

/-- Fills slots in order. -/
def fillSlots (location : Location) : List Slot → Build (List (Option NodeId))
  | [] => return []
  | s :: rest => do
    let child ← s.fill location
    return child :: (← fillSlots location rest)

/-- Puts nodes below another in order. -/
def attach (parent : NodeId) : List (Option NodeId) → Build Unit
  | [] => return ()
  | child :: rest => do
    Build.addChild parent child
    attach parent rest

/-- Builds the node of a form and gives its handle. -/
def build (form : Form) (location : Location) : Build NodeId := do
  if form.nodeFirst then
    let id ← Build.create location form.kind form.payload
    attach id (← fillSlots location form.slots)
    return id
  else
    let children ← fillSlots location form.slots
    let id ← Build.create location form.kind form.payload
    attach id children
    Build.edit fun t => return ((), t.modify id fun n => { n with flags := form.flags })
    return id

end Form

end SemanticCore
