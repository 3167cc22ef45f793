import SemanticCore.Context
import SemanticCore.Proofs.Renaming.Scopes
import SemanticCore.Proofs.Renaming.Types
import SemanticCore.Proofs.Scope.Refinement
import SemanticCore.Syntax.Printer

/-!
# Operations on a context

What can be asked of a context and of its services, and what the answers are. An operation is made
of texts, numbers and the values that a context gives out: nodes, names, types and scopes. So it can
be renamed, and so can an answer. The bytes of the arena are left to `SessionOp`.

* `ContextOp.apply`: the answer to an operation and the context after it.
* `ContextOp.rename`, `Answer.rename`: operations and answers renamed.
-/

namespace SemanticCore

/-! ## Answers -/

/-- The answer to an operation. A piece of the arena goes by a number and has a size; of its bytes,
some may not be told. -/
inductive Answer where
  | done
  | truth (value : Bool)
  | count (value : Nat)
  | order (value : Ordering)
  | text (value : String)
  | location (value : Location)
  | info (file : String) (blockSize : Nat) (pointerSize : PointerSize)
  | name (value : Option Name)
  | names (value : List (String × Name))
  | handle (value : NodeId)
  | node (value : Option Node)
  | nodes (value : List Node)
  | note (value : Option Metadata)
  | type (value : Option Ty)
  | invalidType (e : RegistryError)
  | symbols (value : SymbolAnswer)
  | scope (value : ScopeId)
  | contents (value : Scope)
  | symbol (value : Option Symbol)
  | binding (value : Option (ScopeId × Symbol))
  | piece (value : Option (Nat × Nat))
  | bytes (value : List (Option UInt8))
  | denied (e : ArenaError)
  | pool (value : Nat)
  | objects (value : List Metadata)
  | diagnostics (value : List Diagnostic)
  | formatted (value : Except FormatError String)
  | refused (e : SyntaxError)

def SymbolAnswer.rename (ρ : Renaming) : SymbolAnswer → SymbolAnswer
  | .none => .none
  | .success b => .success b
  | .declaration node => .declaration (node.map ρ.node)
  | .symbol s => .symbol (s.map (Symbol.rename ρ))
  | .symbols ss => .symbols (ss.map (Symbol.rename ρ))

namespace Answer

def rename (ρ : Renaming) : Answer → Answer
  | .name found => .name (found.map ρ.name)
  | .names table => .names (table.map (Prod.map id ρ.name))
  | .handle h => .handle (ρ.node h)
  | .node n => .node (n.map (Node.rename ρ))
  | .nodes ns => .nodes (ns.map (Node.rename ρ))
  | .note m => .note (m.map (Metadata.rename ρ))
  | .objects ms => .objects (ms.map (Metadata.rename ρ))
  | .type t => .type (t.map (Ty.rename ρ))
  | .symbols a => .symbols (a.rename ρ)
  | .scope i => .scope (ρ.scope i)
  | .contents s => .contents (s.rename ρ)
  | .symbol s => .symbol (s.map (Symbol.rename ρ))
  | .binding b => .binding (b.map (Prod.map ρ.scope (Symbol.rename ρ)))
  | .refused e => .refused (e.rename ρ)
  | a => a

/-- The answer that an outcome comes to. -/
def of {α : Type} (wrap : α → Answer) : Except SyntaxError α → Answer
  | .ok a => wrap a
  | .error e => .refused e

theorem of_outcome {ρ : Renaming} {α β : Type} {f : α → β} {wrap : α → Answer}
    {wrap' : β → Answer} {x : Except SyntaxError α} {y : Except SyntaxError β}
    (hxy : y = outcome ρ f x) (hWrap : ∀ a, wrap' (f a) = (wrap a).rename ρ) :
    of wrap' y = (of wrap x).rename ρ := by
  subst hxy
  cases x with
  | error e => rfl
  | ok a => exact hWrap a

end Answer

/-! ## Names -/

inductive StringOp where
  | intern (text : String)
  | lookup (text : String)
  | builtin (text : String)
  | empty
  | builtins
  | isBuiltin (name : Name)
  | isKeyword (name : Name)
  | compare (first second : Name)
  | count
  | memoryUsed
  | forget

namespace StringOp

def apply (c : Context) : StringOp → Answer × Context
  | intern text => (.name (some (c.intern text).1), (c.intern text).2)
  | lookup text => (.name (c.strings.lookup? text), c)
  | builtin text => (.name (c.strings.builtin? text), c)
  | empty => (.name (some c.strings.empty), c)
  | builtins => (.names c.strings.builtins, c)
  | isBuiltin name => (.truth (c.strings.isBuiltin name), c)
  | isKeyword name => (.truth (c.strings.isKeyword name), c)
  | compare first second => (.order (first.order second), c)
  | count => (.count c.strings.count, c)
  | memoryUsed => (.count c.strings.memoryUsed, c)
  | forget => (.done, c.resetStrings)

def rename (ρ : Renaming) : StringOp → StringOp
  | isBuiltin name => isBuiltin (ρ.name name)
  | isKeyword name => isKeyword (ρ.name name)
  | compare first second => compare (ρ.name first) (ρ.name second)
  | op => op

end StringOp

/-! ## Nodes -/

/-- Changes of nodes that are there; the children and attributes among them. -/
inductive NodeEdit where
  | addChild (parent : NodeId) (child : Option NodeId)
  | insertChild (parent : NodeId) (index : Number) (child : NodeId)
  | removeChild (parent child : NodeId)
  | replaceChild (parent old next : NodeId)
  | addAttribute (owner : NodeId) (added : Option NodeId)
  | removeAttribute (owner removed : NodeId)
  | setFlag (node : NodeId) (flag : Flags)
  | clearFlag (node : NodeId) (flag : Flags)
  | toggleFlag (node : NodeId) (flag : Flags)
  | clearAllFlags (node : NodeId)
  | setType (node : NodeId) (type : Option Ty)
  | setMetadata (node : NodeId) (key : String) (value : Metadata)
  | removeMetadata (node : NodeId) (key : String)

namespace NodeEdit

/-- The tree after an edit, and whether there was something to edit. -/
def apply (t : Tree) : NodeEdit → Except SyntaxError (Bool × Tree)
  | addChild parent child => return (true, ← t.addChild parent child)
  | insertChild parent index child => return (true, ← t.insertChild parent index child)
  | removeChild parent child => t.removeChild parent child
  | replaceChild parent old next => t.replaceChild parent old next
  | addAttribute owner added => return (true, ← t.addAttribute owner added)
  | removeAttribute owner removed => t.removeAttribute owner removed
  | setFlag node flag => return (true, ← t.setFlag node flag)
  | clearFlag node flag => return (true, ← t.clearFlag node flag)
  | toggleFlag node flag => return (true, ← t.toggleFlag node flag)
  | clearAllFlags node => return (true, ← t.clearAllFlags node)
  | setType node type => return (true, ← t.setType node type)
  | setMetadata node key value => return (true, ← t.setMetadata node key value)
  | removeMetadata node key => t.removeMetadata node key

def rename (ρ : Renaming) : NodeEdit → NodeEdit
  | addChild parent child => addChild (ρ.node parent) (child.map ρ.node)
  | insertChild parent index child => insertChild (ρ.node parent) index (ρ.node child)
  | removeChild parent child => removeChild (ρ.node parent) (ρ.node child)
  | replaceChild parent old next => replaceChild (ρ.node parent) (ρ.node old) (ρ.node next)
  | addAttribute owner added => addAttribute (ρ.node owner) (added.map ρ.node)
  | removeAttribute owner removed => removeAttribute (ρ.node owner) (ρ.node removed)
  | setFlag node flag => setFlag (ρ.node node) flag
  | clearFlag node flag => clearFlag (ρ.node node) flag
  | toggleFlag node flag => toggleFlag (ρ.node node) flag
  | clearAllFlags node => clearAllFlags (ρ.node node)
  | setType node type => setType (ρ.node node) (type.map (Ty.rename ρ))
  | setMetadata node key value => setMetadata (ρ.node node) key (value.rename ρ)
  | removeMetadata node key => removeMetadata (ρ.node node) key

end NodeEdit

/-- An edit of the tree of a context. What is refused changes nothing. -/
def Context.edit (c : Context) (e : NodeEdit) : Answer × Context :=
  match e.apply c.tree with
  | .ok (found, tree) => (.truth found, { c with tree })
  | .error e => (.refused e, c)

/-- What is asked about nodes. A walk does not go below nodes of the pruned kinds. -/
inductive NodeQuery where
  | size
  | all
  | node (node : NodeId)
  | child (parent : NodeId) (index : Number)
  | firstChild (parent : NodeId)
  | lastChild (parent : NodeId)
  | childCount (parent : NodeId)
  | childNodes (parent : NodeId)
  | attributeAt (owner : NodeId) (index : Number)
  | attributeCount (owner : NodeId)
  | findAttribute (owner : NodeId) (name : Name)
  | ancestors (node : NodeId)
  | depth (node : NodeId)
  | root (node : NodeId)
  | hasFlag (node : NodeId) (flag : Flags)
  | hasAnyFlag (node : NodeId) (mask : Flags)
  | hasAllFlags (node : NodeId) (mask : Flags)
  | typeOf (node : NodeId)
  | metadata (node : NodeId) (key : String)
  | metadataAs (node : NodeId) (key : String) (kind : MetadataKind)
  | hasMetadata (node : NodeId) (key : String)
  | walk (root : NodeId) (pruned : List NodeKind)
  | collect (root : NodeId) (kind : NodeKind)
  | count (root : NodeId)
  | find (root : NodeId) (kind : NodeKind)
  | print (root : NodeId)

namespace NodeQuery

def answer (t : Tree) : NodeQuery → Answer
  | size => .count t.size
  | all => .nodes t.nodes
  | node h => .of (fun n => .node (some n)) (t.node h)
  | child parent index => .of .node (t.child parent index)
  | firstChild parent => .of .node (t.firstChild parent)
  | lastChild parent => .of .node (t.lastChild parent)
  | childCount parent => .of .count (t.childCount parent)
  | childNodes parent => .of .nodes (t.childNodes parent)
  | attributeAt owner index => .of .node (t.attributeAt owner index)
  | attributeCount owner => .of .count (t.attributeCount owner)
  | findAttribute owner name => .of .node (t.findAttribute owner name)
  | ancestors h => .of .nodes (t.ancestors h)
  | depth h => .of .count (t.depth h)
  | root h => .of (fun n => .node (some n)) (t.root h)
  | hasFlag h flag => .of .truth (t.hasFlag h flag)
  | hasAnyFlag h mask => .of .truth (t.hasAnyFlag h mask)
  | hasAllFlags h mask => .of .truth (t.hasAllFlags h mask)
  | typeOf h => .of .type (t.typeOf h)
  | metadata h key => .of .note (t.getMetadata h key)
  | metadataAs h key kind => .of .note (t.getMetadataAs h key kind)
  | hasMetadata h key => .of .truth (t.hasMetadata h key)
  | walk h pruned => .of .nodes (t.walk h fun n => !pruned.contains n.kind)
  | collect h kind => .of .nodes (t.collect h kind)
  | count h => .of .count (t.count h)
  | find h kind => .of .node (t.find? h kind)
  | print h => .of .text (t.print h)

def rename (ρ : Renaming) : NodeQuery → NodeQuery
  | size => size
  | all => all
  | node h => node (ρ.node h)
  | child parent index => child (ρ.node parent) index
  | firstChild parent => firstChild (ρ.node parent)
  | lastChild parent => lastChild (ρ.node parent)
  | childCount parent => childCount (ρ.node parent)
  | childNodes parent => childNodes (ρ.node parent)
  | attributeAt owner index => attributeAt (ρ.node owner) index
  | attributeCount owner => attributeCount (ρ.node owner)
  | findAttribute owner name => findAttribute (ρ.node owner) (ρ.name name)
  | ancestors h => ancestors (ρ.node h)
  | depth h => depth (ρ.node h)
  | root h => root (ρ.node h)
  | hasFlag h flag => hasFlag (ρ.node h) flag
  | hasAnyFlag h mask => hasAnyFlag (ρ.node h) mask
  | hasAllFlags h mask => hasAllFlags (ρ.node h) mask
  | typeOf h => typeOf (ρ.node h)
  | metadata h key => metadata (ρ.node h) key
  | metadataAs h key kind => metadataAs (ρ.node h) key kind
  | hasMetadata h key => hasMetadata (ρ.node h) key
  | walk h pruned => walk (ρ.node h) pruned
  | collect h kind => collect (ρ.node h) kind
  | count h => count (ρ.node h)
  | find h kind => find (ρ.node h) kind
  | print h => print (ρ.node h)

end NodeQuery

/-! ## Scopes -/

/-- What is done in a scope, apart from the symbol table. -/
inductive ScopeAction where
  | createChild (node : Option NodeId)
  | define (name : Name) (declaration : Option NodeId)
  | contents
  | find (name : Name)
  | resolve (name : Name)

inductive ScopeOp where
  | global
  | current
  | level
  | create (node : Option NodeId)
  | within (scope : ScopeId) (action : ScopeAction)

namespace ScopeAction

def apply (s : Scopes) (i : ScopeId) : ScopeAction → Answer × Scopes
  | createChild node => (.scope (s.createChild i node).1, (s.createChild i node).2)
  | define name declaration =>
    (.symbol (s.define i name declaration).1, (s.define i name declaration).2)
  | contents => (.contents (s.get i), s)
  | find name => (.symbol ((s.get i).find? name), s)
  | resolve name => (.binding (s.resolve? i name), s)

def rename (ρ : Renaming) : ScopeAction → ScopeAction
  | createChild node => createChild (node.map ρ.node)
  | define name declaration => define (ρ.name name) (declaration.map ρ.node)
  | contents => contents
  | find name => find (ρ.name name)
  | resolve name => resolve (ρ.name name)

end ScopeAction

def Context.withScopes (c : Context) (scopes : Scopes) : Context :=
  { c with symbols := { c.symbols with scopes } }

namespace ScopeOp

/-- A number that no scope has stands for none, so nothing is done in it. -/
def apply (c : Context) : ScopeOp → Answer × Context
  | global => (.scope c.symbols.globalScope, c)
  | current => (.scope c.symbols.current, c)
  | level => (.count c.symbols.level, c)
  | create node =>
    (.scope (c.symbols.scopes.create node).1, c.withScopes (c.symbols.scopes.create node).2)
  | within i action =>
    if i < c.symbols.scopes.items.size then
      ((action.apply c.symbols.scopes i).1, c.withScopes (action.apply c.symbols.scopes i).2)
    else (.done, c)

def rename (ρ : Renaming) : ScopeOp → ScopeOp
  | create node => create (node.map ρ.node)
  | within i action => within (ρ.scope i) (action.rename ρ)
  | op => op

end ScopeOp

def SymbolOp.rename (ρ : Renaming) : SymbolOp → SymbolOp
  | .define name declaration location =>
    .define (ρ.name name) (declaration.map ρ.node) location
  | .lookup name location reference => .lookup (ρ.name name) location (reference.map ρ.node)
  | .find name => .find (ρ.name name)
  | .update name reference => .update (ρ.name name) (ρ.node reference)
  | .push node => .push (node.map ρ.node)
  | .pop location => .pop location
  | .symbols currentOnly => .symbols currentOnly

/-! ## Diagnostics -/

inductive LogOp where
  | report (d : Diagnostic)
  | count (s : Severity)
  | hasErrors
  | kept
  | format (source : Option SourceFile)
  | clear

def LogOp.apply (c : Context) : LogOp → Answer × Context
  | report d => (.done, c.report d)
  | count s => (.count (c.logger.count s), c)
  | hasErrors => (.truth c.logger.hasErrors, c)
  | kept => (.diagnostics c.logger.kept, c)
  | format source => (.formatted (Diagnostic.formatAll c.logger.kept source), c)
  | clear => (.done, { c with logger := c.logger.clear })

/-! ## Types -/

/-- The answer to a call: a type, none, or why an array cannot be had. -/
def Registry.answer (r : Registry) : TypeCall → Answer
  | .array element length =>
    match (r.array element length).1 with
    | .ok t => .type (some t)
    | .error e => .invalidType e
  | call => .type (r.call call).1

/-! ## Everything -/

/-- An operation on a context or one of its services. -/
inductive ContextOp where
  | strings (op : StringOp)
  | build (form : Form) (location : Option Location)
  | edit (e : NodeEdit)
  | ask (q : NodeQuery)
  | types (call : TypeCall)
  | typeCount
  | symbols (op : SymbolOp)
  | scopes (op : ScopeOp)
  | log (op : LogOp)
  | place (line column offset : Number)
  | info
  | reset

namespace ContextOp

def apply (c : Context) : ContextOp → Answer × Context
  | strings op => op.apply c
  | build form location => (.of .handle (c.build form location).1, (c.build form location).2)
  | edit e => c.edit e
  | ask q => (q.answer c.tree, c)
  | types call => (c.types.answer call, { c with types := (c.types.call call).2 })
  | typeCount => (.count c.types.count, c)
  | symbols op => (.symbols (op.apply c).1, (op.apply c).2)
  | scopes op => op.apply c
  | log op => op.apply c
  | place line column offset => (.location (c.place line column offset), c)
  | info => (.info c.file c.arena.blockSize c.types.pointerSize, c)
  | reset => (.done, c.reset)

def rename (ρ : Renaming) : ContextOp → ContextOp
  | strings op => strings (op.rename ρ)
  | build form location => build (form.rename ρ) location
  | edit e => edit (e.rename ρ)
  | ask q => ask (q.rename ρ)
  | types call => types (call.rename ρ)
  | symbols op => symbols (op.rename ρ)
  | scopes op => scopes (op.rename ρ)
  | op => op

end ContextOp

end SemanticCore
