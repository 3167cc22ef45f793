import SemanticCore.Diagnostic.Format
import SemanticCore.Diagnostic.Logger
import SemanticCore.Scope.SymbolTable
import SemanticCore.Syntax.LinkEdit
import SemanticCore.Types.Registry

/-!
# The context of a compilation

Everything that the passes over one unit share: the arena with the interned names, the tree, the
log, the types and the symbols. `Context.reset` starts over for the next unit: what was handed out
before is stale.
-/

namespace SemanticCore

/-- What a context is made with. Sinks are those attached from the start. -/
structure ContextOptions where
  file : String := "<input>"
  blockSize : Number := .ofNat Arena.defaultBlockSize
  pointerSize : Number := Registry.defaultPointerSize
  sinks : Nat := 0

/-- Why a context cannot be had. -/
inductive ContextError where
  | arena (e : ArenaError)
  | registry (e : RegistryError)
  deriving DecidableEq, Repr

/-- The text of the error that is thrown. -/
def ContextError.message : ContextError → String
  | .arena e => e.message
  | .registry e => e.message

/-- The services that the passes over one unit share. -/
structure Context where
  file : String
  arena : Arena
  strings : Interner
  tree : Tree
  logger : Logger
  types : Registry
  symbols : SymbolTable
  deriving Inhabited

namespace Context

/-- A new context. Its first block, which takes the built-in names, must not be too large. A bad
block size is found before a bad pointer size. -/
def create (o : ContextOptions) : Except ContextError Context := do
  let arena ← (Arena.create o.blockSize).mapError .arena
  if Arena.largestBlock < arena.blockSize then
    throw (.arena (.outOfMemory arena.blockSize))
  let (strings, arena) := Interner.start 0 arena
  let types ← (Registry.create 0 o.pointerSize).mapError .registry
  return {
    file := o.file
    arena
    strings
    tree := {}
    logger := { sinks := List.replicate o.sinks [] }
    types
    symbols := SymbolTable.start {} }

/-- Starts over: drops nodes, names, types, symbols and diagnostics. -/
def reset (c : Context) : Context :=
  let (strings, arena) := c.strings.reset c.arena.reset
  { c with
    arena
    strings
    tree := c.tree.release
    types := c.types.clear
    logger := c.logger.clear
    symbols := SymbolTable.start c.symbols.scopes }

/-- Resets the arena alone. The nodes go, the names stay; their bytes may be handed out again. -/
def resetArena (c : Context) : Context :=
  { c with arena := c.arena.reset, tree := c.tree.release }

/-- Drops the blocks of the arena. The nodes go, the names stay, and their bytes with them. -/
def clearArena (c : Context) : Context :=
  { c with arena := c.arena.clear, tree := c.tree.release }

/-- A location in the file of the context. -/
def place (c : Context) (line column offset : Number) : Location :=
  { file := c.file, line, column, offset }

/-- The location of nodes for which none is given. -/
def defaultLocation (c : Context) : Location := c.place 0 0 0

/-! ## Names -/

/-- The name of a text, which is made if there is none yet. -/
def intern (c : Context) (text : String) : Name × Context :=
  let (name, strings, arena) := c.strings.intern c.arena text
  (name, { c with strings, arena })

/-- Forgets the interned names alone. The bytes of the old ones stay in use in the arena. -/
def resetStrings (c : Context) : Context :=
  let (strings, arena) := c.strings.reset c.arena
  { c with strings, arena }

/-! ## Nodes -/

/-- Builds the node of a form. What was built stays when a later step is refused. -/
def build (c : Context) (form : Form) (location : Option Location) :
    Except SyntaxError NodeId × Context :=
  let (result, tree) := form.build (location.getD c.defaultLocation) c.tree
  (result, { c with tree })

/-- Edits links of nodes. What was written stays when a later step is refused. -/
def relink (c : Context) (e : LinkEdit) : Except SyntaxError Bool × Context :=
  let (result, tree) := e.perform c.tree
  (result, { c with tree })

/-! ## Diagnostics -/

/-- Reports a diagnostic to the log. -/
def report (c : Context) (d : Diagnostic) : Context := { c with logger := c.logger.report d }

/-- Reports diagnostics one after another. -/
def reportAll (c : Context) (ds : List Diagnostic) : Context :=
  { c with logger := c.logger.reportAll ds }

/-! ## Symbols -/

/-- Binds a name in the current scope and reports a redefinition. -/
def define (c : Context) (name : Name) (declaration : Option NodeId) (location : Location) :
    Bool × Context :=
  let (defined, symbols, ds) := c.symbols.define c.tree name declaration location
  (defined, { c with symbols }.reportAll ds)

/-- Resolves a name and reports one that is not bound. -/
def lookup (c : Context) (name : Name) (location : Location) (reference : Option NodeId) :
    Option NodeId × Context :=
  let (declaration, symbols, ds) := c.symbols.lookup name location reference
  (declaration, { c with symbols }.reportAll ds)

/-- Sets the node that last referred to the symbol of a name, if the name is bound. -/
def updateReference (c : Context) (name : Name) (reference : Option NodeId) : Bool × Context :=
  let (found, symbols) := c.symbols.updateReference name reference
  (found, { c with symbols })

/-- Enters a new scope below the current one. -/
def pushScope (c : Context) (node : Option NodeId) : ScopeId × Context :=
  let (id, symbols) := c.symbols.push node
  (id, { c with symbols })

/-- Leaves a scope and reports its unused symbols. -/
def popScope (c : Context) (location : Location) : Context :=
  let (symbols, ds) := c.symbols.pop c.tree location
  { c with symbols }.reportAll ds

end Context

end SemanticCore
