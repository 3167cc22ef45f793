import SemanticCore.Syntax.Form

/-!
# Edits of links, write by write

An edit of children or attributes is made of reads and writes of single nodes, one after the other.
A node that does not resolve refuses the edit when it is read, and whatever was written before that
stays (`LinkEdit.perform`). The edits of `Tree` give the tree after all writes at once, or none.
-/

namespace SemanticCore

namespace Build

/-- Looks a node up; refused if there is none. -/
def readNode (id : NodeId) : Build Node := edit fun t => return (← t.node id, t)

/-- Changes a node, if there is one. -/
def writeNode (id : NodeId) (f : Node → Node) : Build Unit :=
  edit fun t => return ((), t.modify id f)

end Build

/-- A change of the children or the attributes of nodes. -/
inductive LinkEdit where
  | addChild (parent : NodeId) (child : Option NodeId)
  | insertChild (parent : NodeId) (index : Number) (child : NodeId)
  | removeChild (parent child : NodeId)
  | replaceChild (parent old next : NodeId)
  | addAttribute (owner : NodeId) (added : Option NodeId)
  | removeAttribute (owner removed : NodeId)
  deriving DecidableEq, Repr

namespace LinkEdit

open Build

/-- Takes a node out of the children of its parent and gives it a new one. -/
def adopt (parent child : NodeId) : Build Unit := do
  let above ← edit fun t => return (← t.ancestors parent, t)
  if child = parent ∨ above.any (·.id == child) then
    throw (.cycle child parent)
  match (← readNode child).parent with
  | none => pure ()
  | some previous =>
    let _ ← readNode previous
    writeNode previous fun n => { n with children := n.children.erase child }
  writeNode child fun n => { n with parent := some parent }

/-- Makes an edit, and tells whether there was something to edit. -/
def perform : LinkEdit → Build Bool
  | addChild _ none => return true
  | addChild parent (some child) => do
    let _ ← readNode parent
    adopt parent child
    writeNode parent fun n => { n with children := n.children ++ [child] }
    return true
  | insertChild parent index child => do
    let _ ← readNode parent
    adopt parent child
    writeNode parent fun n =>
      { n with children := n.children.insertIdx (index.clampTo n.children.length) child }
    return true
  | removeChild parent child => do
    if child ∈ (← readNode parent).children then
      writeNode parent fun n => { n with children := n.children.erase child }
      let _ ← readNode child
      writeNode child fun n => { n with parent := none }
      return true
    else return false
  | replaceChild parent old next => do
    if old ∉ (← readNode parent).children then return false
    else if old = next then return true
    else
      adopt parent next
      writeNode parent fun n => { n with children := n.children.replace old next }
      let _ ← readNode old
      writeNode old fun n => { n with parent := none }
      return true
  | addAttribute _ none => return true
  | addAttribute owner (some added) => do
    let _ ← readNode owner
    let _ ← readNode added
    writeNode added fun n => { n with parent := some owner }
    writeNode owner fun n => { n with attributes := n.attributes ++ [added] }
    return true
  | removeAttribute owner removed => do
    if removed ∈ (← readNode owner).attributes then
      writeNode owner fun n => { n with attributes := n.attributes.erase removed }
      let _ ← readNode removed
      writeNode removed fun n => { n with parent := none }
      return true
    else return false

end LinkEdit

end SemanticCore
