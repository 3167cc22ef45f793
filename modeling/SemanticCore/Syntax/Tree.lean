import SemanticCore.Number.Decimal
import SemanticCore.Syntax.Node

/-!
# The syntax tree

The nodes of a unit live in one pool and link to one another by handle. A node has at most one
parent: a node that is put under another leaves the children of its previous parent. An edit that
is refused gives no tree, so nothing has changed.

* `Tree.addChild`, `Tree.insertChild`, `Tree.removeChild`, `Tree.replaceChild`: the edits of
  children. A node goes neither under itself nor under a node below it.
* `Tree.addAttribute`, `Tree.removeAttribute`: the edits of attributes.
* `Tree.ancestors`: the chain of parents.
-/

namespace SemanticCore

/-- Why something about a tree is refused. -/
inductive SyntaxError where
  | unknownKind (name : String)
  | unknownNode (id : NodeId)
  | cycle (child parent : NodeId)
  | poolExhausted
  | notIntegral (value : Number)
  | notCodePoint (value : Number)
  | noPayload (kind : NodeKind)
  | tooDeep (id : NodeId)
  deriving DecidableEq, Repr

/-- What a refusal says. -/
def SyntaxError.message : SyntaxError → String
  | .unknownKind name => "unknown node kind '" ++ name ++ "'"
  | .unknownNode id => "unknown or stale node id " ++ id.text
  | .cycle child parent =>
    "adding node " ++ child.text ++ " under " ++ parent.text ++ " would create a cycle"
  | .poolExhausted => "arena pool exhausted"
  | .notIntegral value => "the number " ++ value.text ++ " is not an integer"
  | .notCodePoint value => "the number " ++ value.text ++ " is not a code point"
  | .noPayload kind => "the " ++ kind.name ++ " node lacks what its kind carries"
  | .tooDeep id => "the nodes below " ++ id.text ++ " are nested too deeply"

/-- The nodes of a unit. -/
structure Tree where
  pool : Pool Node := {}
  deriving Inhabited

namespace Tree

/-! ## Nodes -/

/-- The node of a handle, if it is one of this generation. -/
def get? (t : Tree) (id : NodeId) : Option Node := t.pool.get? id

/-- The node of a handle; refused if there is none. -/
def node (t : Tree) (id : NodeId) : Except SyntaxError Node :=
  match t.get? id with
  | some n => .ok n
  | none => .error (.unknownNode id)

/-- How many nodes there are. -/
def size (t : Tree) : Nat := t.pool.size

/-- The nodes in the order in which they were made. -/
def nodes (t : Tree) : List Node := t.pool.values

/-- Changes a node, if there is one. -/
def modify (t : Tree) (id : NodeId) (f : Node → Node) : Tree :=
  { t with pool := t.pool.modify id f }

/-- Changes a node; refused if there is none. -/
def update (t : Tree) (id : NodeId) (f : Node → Node) : Except SyntaxError Tree := do
  let _ ← t.node id
  return t.modify id f

/-- Makes a node without links, flags, type and notes. -/
def create (t : Tree) (location : Location) (kind : NodeKind) (payload : Payload) :
    Except SyntaxError (NodeId × Tree) :=
  match t.pool.construct? { id := t.pool.nextHandle, kind, payload, location } with
  | some (id, pool) => .ok (id, { t with pool })
  | none => .error .poolExhausted

/-- Drops every node; no handle given so far resolves again. -/
def release (t : Tree) : Tree := { t with pool := t.pool.release }

/-! ## Ancestors -/

/-- The chain of parents that begins with a link, at most `limit` of them. -/
def chain (t : Tree) : Nat → Option NodeId → Except SyntaxError (List Node)
  | _, none => .ok []
  | 0, some _ => .ok []
  | limit + 1, some id => do
    let n ← t.node id
    return n :: (← t.chain limit n.parent)

/-- The nodes above a node, nearest first. Without a cycle there are fewer of them than nodes. -/
def ancestors (t : Tree) (id : NodeId) : Except SyntaxError (List Node) := do
  t.chain t.size (← t.node id).parent

/-- How many nodes are above a node. -/
def depth (t : Tree) (id : NodeId) : Except SyntaxError Nat := return (← t.ancestors id).length

/-- The topmost node above a node; the node itself if it has no parent. -/
def root (t : Tree) (id : NodeId) : Except SyntaxError Node := do
  match (← t.ancestors id).getLast? with
  | some n => return n
  | none => t.node id

/-! ## Children -/

/-- Gives a node to a new parent: it leaves the children of its previous one. It does not get among
the children of the new one yet. -/
def adopt (t : Tree) (parent child : NodeId) : Except SyntaxError Tree := do
  if child = parent ∨ (← t.ancestors parent).any (·.id == child) then
    throw (.cycle child parent)
  let link := (← t.node child).parent
  let t ← match link with
    | none => pure t
    | some previous => t.update previous fun n => { n with children := n.children.erase child }
  return t.modify child fun n => { n with parent := some parent }

/-- Puts a node after the children of another. Nothing happens without a node. -/
def addChild (t : Tree) (parent : NodeId) : Option NodeId → Except SyntaxError Tree
  | none => return t
  | some child => do
    let _ ← t.node parent
    let t ← t.adopt parent child
    return t.modify parent fun n => { n with children := n.children ++ [child] }

/-- Puts a node among the children of another, at a place that is moved into range. -/
def insertChild (t : Tree) (parent : NodeId) (index : Number) (child : NodeId) :
    Except SyntaxError Tree := do
  let _ ← t.node parent
  let t ← t.adopt parent child
  return t.modify parent fun n =>
    { n with children := n.children.insertIdx (index.clampTo n.children.length) child }

/-- Takes a node out of the children of another; `false` if it is none of them. -/
def removeChild (t : Tree) (parent child : NodeId) : Except SyntaxError (Bool × Tree) := do
  if child ∈ (← t.node parent).children then
    let t := t.modify parent fun n => { n with children := n.children.erase child }
    return (true, ← t.update child fun n => { n with parent := none })
  else return (false, t)

/-- Puts a node in the place of a child; `false` if that is no child. -/
def replaceChild (t : Tree) (parent old next : NodeId) : Except SyntaxError (Bool × Tree) := do
  if old ∉ (← t.node parent).children then return (false, t)
  if old = next then return (true, t)
  let t ← t.adopt parent next
  let t := t.modify parent fun n => { n with children := n.children.replace old next }
  return (true, ← t.update old fun n => { n with parent := none })

/-- The node that a link leads to, if there is a link. -/
def follow (t : Tree) : Option NodeId → Except SyntaxError (Option Node)
  | none => return none
  | some id => return some (← t.node id)

/-- The child at a place. -/
def child (t : Tree) (parent : NodeId) (index : Number) : Except SyntaxError (Option Node) := do
  t.follow (Number.entry? (← t.node parent).children index)

/-- The first child. -/
def firstChild (t : Tree) (parent : NodeId) : Except SyntaxError (Option Node) := do
  t.follow (← t.node parent).children.head?

/-- The last child. -/
def lastChild (t : Tree) (parent : NodeId) : Except SyntaxError (Option Node) := do
  t.follow (← t.node parent).children.getLast?

/-- How many children a node has. -/
def childCount (t : Tree) (parent : NodeId) : Except SyntaxError Nat :=
  return (← t.node parent).children.length

/-- The children in order. -/
def childNodes (t : Tree) (parent : NodeId) : Except SyntaxError (List Node) := do
  (← t.node parent).children.mapM t.node

/-! ## Attributes -/

/-- Puts a node after the attributes of another. Nothing happens without a node. -/
def addAttribute (t : Tree) (owner : NodeId) : Option NodeId → Except SyntaxError Tree
  | none => return t
  | some added => do
    let _ ← t.node owner
    let t ← t.update added fun n => { n with parent := some owner }
    return t.modify owner fun n => { n with attributes := n.attributes ++ [added] }

/-- Takes a node out of the attributes of another; `false` if it is none of them. -/
def removeAttribute (t : Tree) (owner removed : NodeId) : Except SyntaxError (Bool × Tree) := do
  if removed ∈ (← t.node owner).attributes then
    let t := t.modify owner fun n => { n with attributes := n.attributes.erase removed }
    return (true, ← t.update removed fun n => { n with parent := none })
  else return (false, t)

/-- The attribute at a place. -/
def attributeAt (t : Tree) (owner : NodeId) (index : Number) :
    Except SyntaxError (Option Node) := do
  t.follow (Number.entry? (← t.node owner).attributes index)

/-- How many attributes a node has. -/
def attributeCount (t : Tree) (owner : NodeId) : Except SyntaxError Nat :=
  return (← t.node owner).attributes.length

/-- The first of some nodes with a name. -/
def firstNamed (t : Tree) (name : Name) : List NodeId → Except SyntaxError (Option Node)
  | [] => return none
  | id :: ids => do
    let n ← t.node id
    if n.name? = some name then return some n else t.firstNamed name ids

/-- The first attribute of a node with a name. -/
def findAttribute (t : Tree) (owner : NodeId) (name : Name) :
    Except SyntaxError (Option Node) := do
  t.firstNamed name (← t.node owner).attributes

/-! ## Flags, types and notes -/

/-- Changes the flags of a node. -/
def updateFlags (t : Tree) (id : NodeId) (f : Flags → Flags) : Except SyntaxError Tree :=
  t.update id fun n => { n with flags := f n.flags }

/-- Sets a flag. -/
def setFlag (t : Tree) (id : NodeId) (flag : Flags) : Except SyntaxError Tree :=
  t.updateFlags id (·.insert flag)

/-- Takes a flag away. -/
def clearFlag (t : Tree) (id : NodeId) (flag : Flags) : Except SyntaxError Tree :=
  t.updateFlags id (·.erase flag)

/-- Sets a flag if it is not set, and takes it away if it is. -/
def toggleFlag (t : Tree) (id : NodeId) (flag : Flags) : Except SyntaxError Tree :=
  t.updateFlags id (·.toggle flag)

/-- Takes all flags away. -/
def clearAllFlags (t : Tree) (id : NodeId) : Except SyntaxError Tree :=
  t.updateFlags id fun _ => Flags.none

/-- Whether a flag is set. -/
def hasFlag (t : Tree) (id : NodeId) (flag : Flags) : Except SyntaxError Bool :=
  return (← t.node id).flags.has flag

/-- Whether one flag of a mask is set. -/
def hasAnyFlag (t : Tree) (id : NodeId) (mask : Flags) : Except SyntaxError Bool :=
  return (← t.node id).flags.hasAny mask

/-- Whether all flags of a mask are set. -/
def hasAllFlags (t : Tree) (id : NodeId) (mask : Flags) : Except SyntaxError Bool :=
  return (← t.node id).flags.hasAll mask

/-- Gives a node a type, or takes its type away. -/
def setType (t : Tree) (id : NodeId) (type : Option Ty) : Except SyntaxError Tree :=
  t.update id fun n => { n with type }

/-- The type that was given to a node. -/
def typeOf (t : Tree) (id : NodeId) : Except SyntaxError (Option Ty) := return (← t.node id).type

/-- Puts a note on a node under a key, in place of an earlier one. -/
def setMetadata (t : Tree) (id : NodeId) (key : String) (value : Metadata) :
    Except SyntaxError Tree :=
  t.update id (·.setNote key value)

/-- The note on a node under a key. -/
def getMetadata (t : Tree) (id : NodeId) (key : String) : Except SyntaxError (Option Metadata) :=
  return (← t.node id).note? key

/-- The note on a node under a key, if it is of a kind. -/
def getMetadataAs (t : Tree) (id : NodeId) (key : String) (kind : MetadataKind) :
    Except SyntaxError (Option Metadata) :=
  return ((← t.node id).note? key).filter (·.kind == kind)

/-- Whether there is a note under a key. -/
def hasMetadata (t : Tree) (id : NodeId) (key : String) : Except SyntaxError Bool :=
  return ((← t.node id).note? key).isSome

/-- Removes the note under a key; `false` if there is none. -/
def removeMetadata (t : Tree) (id : NodeId) (key : String) : Except SyntaxError (Bool × Tree) := do
  let found := ((← t.node id).note? key).isSome
  return (found, t.modify id (·.eraseNote key))

end Tree

end SemanticCore
