import SemanticCore.Diagnostic.Basic
import SemanticCore.Syntax.Kind
import SemanticCore.Types.Identity

/-!
# Syntax nodes

A node has a kind, what its kind carries besides (`Payload`), its place in the source, its links to
other nodes by their handles, and what passes note on it.
-/

namespace SemanticCore

/-- What a node carries besides its links. -/
inductive Payload where
  | plain
  | name (name : Name)
  | bool (value : Bool)
  | integer (value : Int)
  | float (bits : UInt64)
  | text (value : Name)
  | char (code : Number)
  | arraySize (size : Number)
  | unary (operator : String) (before : Bool)
  | operator (operator : String)
  | range (inclusive : Bool)
  | importPath (path : Name) (localName : Option Name)
  | importItem (name : Name) (localName : Option Name)
  deriving DecidableEq, Repr, Inhabited

/-- The name that a payload holds, if it is that of a named thing. -/
def Payload.name? : Payload → Option Name
  | .name n | .importItem n _ => some n
  | _ => none

/-- What a pass notes on a node under a key. -/
inductive Metadata where
  | bool (value : Bool)
  | int (value : Number)
  | string (value : String)
  | name (value : Name)
  | node (value : Option NodeId)
  | type (value : Option Ty)
  deriving DecidableEq, Inhabited

/-- The kinds of notes. -/
inductive MetadataKind where
  | bool
  | int
  | string
  | name
  | node
  | type
  deriving DecidableEq, Repr, Inhabited

/-- The word for a kind of notes. -/
def MetadataKind.word : MetadataKind → String
  | .bool => "bool"
  | .int => "int"
  | .string => "string"
  | .name => "name"
  | .node => "node"
  | .type => "type"

/-- The kind of notes that a word stands for. -/
def MetadataKind.ofWord? (s : String) : Option MetadataKind :=
  [.bool, .int, .string, .name, .node, .type].find? fun x => x.word == s

/-- The kind of a note. -/
def Metadata.kind : Metadata → MetadataKind
  | .bool _ => .bool
  | .int _ => .int
  | .string _ => .string
  | .name _ => .name
  | .node _ => .node
  | .type _ => .type

/-- A syntax node. The attributes are nodes, too, but not children. -/
structure Node where
  id : NodeId
  kind : NodeKind
  payload : Payload
  location : Location
  parent : Option NodeId := none
  children : List NodeId := []
  attributes : List NodeId := []
  type : Option Ty := none
  flags : Flags := Flags.none
  metadata : List (String × Metadata) := []
  deriving DecidableEq, Inhabited

namespace Node

/-- The name in the payload of a node, if it has one. -/
def name? (n : Node) : Option Name := n.payload.name?

/-- The note of a node under a key. -/
def note? (n : Node) (key : String) : Option Metadata := n.metadata.lookup key

/-- A node with a note under a key; a note that was there keeps its place. -/
def setNote (n : Node) (key : String) (value : Metadata) : Node :=
  let replaced :=
    if n.metadata.any (·.1 == key) then
      n.metadata.map fun entry => if entry.1 == key then (key, value) else entry
    else n.metadata ++ [(key, value)]
  { n with metadata := replaced }

/-- The node without its note under a key. -/
def eraseNote (n : Node) (key : String) : Node :=
  { n with metadata := n.metadata.filter (·.1 != key) }

end Node

end SemanticCore
