import SemanticCore.Syntax.Tree

/-!
# Traversal

A visitor has hooks that run when a node is entered and when it is left; a hook for a kind takes
precedence over the hook for all nodes. Entering decides whether the children are visited; a node
that is entered is left in any case. Children come in order, attributes not at all.

* `traverse`: the traversal, in any monad that can look nodes up.
* `Tree.walk`: the nodes entered, in order.
* `Tree.collect`, `Tree.find?`, `Tree.count`: what a subtree holds.
-/

namespace SemanticCore

/-- The hooks of a traversal. -/
structure Visitor (m : Type → Type) where
  enterKind : NodeKind → Option (Node → m Bool) := fun _ => none
  leaveKind : NodeKind → Option (Node → m Unit) := fun _ => none
  enterNode : Option (Node → m Bool) := none
  leaveNode : Option (Node → m Unit) := none

namespace Visitor

variable {m : Type → Type} [Monad m]

/-- Enters a node and decides whether to visit its children; without a hook they are. -/
def enter (v : Visitor m) (n : Node) : m Bool :=
  match (v.enterKind n.kind).or v.enterNode with
  | some hook => hook n
  | none => pure true

/-- What is done when a node is left: for its kind, else for every node. -/
def leave (v : Visitor m) (n : Node) : m Unit :=
  match (v.leaveKind n.kind).or v.leaveNode with
  | some hook => hook n
  | none => pure ()

end Visitor

/-- How a traversal gets at nodes: the node of a handle, a node as it is now, and what to do when
nodes are nested too deeply. -/
structure NodeSource (m : Type → Type) where
  lookup : NodeId → m Node
  current : Node → m Node
  tooDeep : NodeId → m Unit

/-- Does something with each node of a list in order. -/
def forEach {m : Type → Type} [Monad m] (f : NodeId → m Unit) : List NodeId → m Unit
  | [] => pure ()
  | id :: ids => do
    f id
    forEach f ids

/-- Visits a node and what is below it, at most `limit` levels. The hooks may change the tree: the
children visited are those that the node has once it is entered. -/
def traverse {m : Type → Type} [Monad m] (source : NodeSource m) (v : Visitor m) :
    Nat → NodeId → m Unit
  | 0, id => source.tooDeep id
  | limit + 1, id => do
    let n ← source.lookup id
    if ← v.enter n then
      forEach (traverse source v limit) (← source.current n).children
    v.leave (← source.current n)

/-- Visiting a tree that does not change, with a state of the visitor's own. -/
abbrev Visit (σ : Type) := StateT σ (Except SyntaxError)

namespace Tree

/-- The nodes of a tree that does not change, by their handles. -/
def source (t : Tree) (σ : Type) : NodeSource (Visit σ) where
  lookup id := liftM (t.node id)
  current n := pure n
  tooDeep id := throw (.tooDeep id)

/-- The levels that the nodes of a tree can have; one more, so that a handle without a node is
looked up. -/
def levels (t : Tree) : Nat := t.size + 1

/-- A visit of what is at and below a node, and the state after it. -/
def visit {σ : Type} (t : Tree) (root : NodeId) (v : Visitor (Visit σ)) (s : σ) :
    Except SyntaxError σ := do
  let ((), s) ← (traverse (t.source σ) v t.levels root).run s
  return s

/-- The visitor that records the nodes it enters. -/
def recorder (descend : Node → Bool) : Visitor (Visit (List Node)) where
  enterNode := some fun n => do
    modifyThe (List Node) (· ++ [n])
    return descend n

/-- The nodes of a subtree in order, without what is below the nodes that are not descended
into. -/
def walk (t : Tree) (root : NodeId) (descend : Node → Bool) : Except SyntaxError (List Node) :=
  t.visit root (recorder descend) []

/-- The visitor that gathers the nodes of a kind. -/
def collector (kind : NodeKind) : Visitor (Visit (List Node)) where
  enterNode := some fun n => do
    modifyThe (List Node) fun found => if n.kind = kind then found ++ [n] else found
    return true

/-- The visitor that counts the nodes it enters. -/
def counter : Visitor (Visit Nat) where
  enterNode := some fun _ => do
    modifyThe Nat (· + 1)
    return true

/-- The nodes of a kind in a subtree, in order. -/
def collect (t : Tree) (root : NodeId) (kind : NodeKind) : Except SyntaxError (List Node) :=
  t.visit root (collector kind) []

/-- How many nodes a subtree has. -/
def count (t : Tree) (root : NodeId) : Except SyntaxError Nat := t.visit root counter 0

/-- The first answer that a search gives for some handles. -/
def firstOf (search : NodeId → Except SyntaxError (Option Node)) :
    List NodeId → Except SyntaxError (Option Node)
  | [] => return none
  | id :: ids => do
    match ← search id with
    | some n => return some n
    | none => firstOf search ids

/-- The first node of a kind at most `limit` levels deep in a subtree. -/
def findWithin (t : Tree) (kind : NodeKind) : Nat → NodeId → Except SyntaxError (Option Node)
  | 0, id => throw (.tooDeep id)
  | limit + 1, id => do
    let n ← t.node id
    if n.kind = kind then return some n
    else firstOf (t.findWithin kind limit) n.children

/-- The first node of a kind at or below a node, in pre-order. -/
def find? (t : Tree) (root : NodeId) (kind : NodeKind) : Except SyntaxError (Option Node) :=
  t.findWithin kind t.levels root

end Tree

end SemanticCore
