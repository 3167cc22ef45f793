import SemanticCore.Diagnostic.Basic
import SemanticCore.Scope.Basic
import SemanticCore.Syntax.Tree

/-!
# The symbol table

A cursor moves through nested scopes. Defining a name twice, using a name that is not bound, leaving
the global scope and leaving a scope with unused symbols are reported, and nothing else is; the
operations that report give the new diagnostics with their answer.

* `SymbolTable.define`: binds a name in the current scope.
* `SymbolTable.lookup`: resolves a name and may note the reference.
* `SymbolTable.push`, `SymbolTable.pop`: enter and leave a scope.
-/

namespace SemanticCore

/-- The scopes, and which of them are the global one and the current one. -/
structure SymbolTable where
  scopes : Scopes := {}
  globalScope : ScopeId := 0
  current : ScopeId := 0
  deriving Inhabited

/-- What a symbol table reports. -/
inductive SymbolIssue where
  | redefinition (name : Name)
  | undeclared (name : Name)
  | unused (name : Name)
  | popGlobal
  deriving DecidableEq, Repr

namespace SymbolIssue

/-- Issues are errors, except for what is unused and a scope that cannot be left. -/
def severity : SymbolIssue → Severity
  | .redefinition _ | .undeclared _ => .error
  | .unused _ | .popGlobal => .warning

/-- What an issue says. -/
def message : SymbolIssue → String
  | .redefinition name => "Redefinition of symbol '" ++ name.text ++ "'"
  | .undeclared name => "Use of undeclared identifier '" ++ name.text ++ "'"
  | .unused name => "Unused symbol '" ++ name.text ++ "'"
  | .popGlobal => "Attempted to pop global scope"

/-- An issue as a diagnostic at a location. -/
def diagnostic (i : SymbolIssue) (location : Location) (notes : List Note := []) : Diagnostic :=
  { severity := i.severity, message := i.message, location, notes }

end SymbolIssue

/-- The place of a declaration: that of its node, if it has one that resolves. -/
def Tree.locationOf (t : Tree) (declaration : Option NodeId) : Location :=
  match declaration.bind t.get? with
  | some n => n.location
  | none => Location.unknown

theorem Tree.locationOf_eq (t : Tree) (declaration : Option NodeId) :
    t.locationOf declaration = (declaration.bind t.get?).elim Location.unknown Node.location := by
  unfold locationOf
  cases declaration.bind t.get? <;> rfl

namespace SymbolTable

/-- The table over a store of scopes, with a new global scope. -/
def start (scopes : Scopes) : SymbolTable :=
  let (id, scopes) := scopes.create none
  { scopes, globalScope := id, current := id }

/-- The level of the current scope; the global scope has level zero. -/
def level (s : SymbolTable) : Nat := (s.scopes.get s.current).level

/-- Binds a name in the current scope. A name that is bound there keeps its binding. -/
def define (s : SymbolTable) (tree : Tree) (name : Name) (declaration : Option NodeId)
    (location : Location) : Bool × SymbolTable × List Diagnostic :=
  match s.scopes.define s.current name declaration with
  | (some _, scopes) => (true, { s with scopes }, [])
  | (none, _) =>
    let previous := ((s.scopes.get s.current).find? name).bind (·.declaration)
    let note : Note := ⟨"Previous definition was here", tree.locationOf previous⟩
    (false, s, [(SymbolIssue.redefinition name).diagnostic location [note]])

/-- The innermost symbol of a name; nothing is noted or reported. -/
def find? (s : SymbolTable) (name : Name) : Option Symbol :=
  (s.scopes.resolve? s.current name).map (·.2)

/-- The declaration of a name. A reference, if there is one, becomes the last one to its symbol. -/
def lookup (s : SymbolTable) (name : Name) (location : Location) (reference : Option NodeId) :
    Option NodeId × SymbolTable × List Diagnostic :=
  match s.scopes.resolve? s.current name with
  | none => (none, s, [(SymbolIssue.undeclared name).diagnostic location])
  | some (id, symbol) =>
    let scopes := if reference.isSome then s.scopes.refer id name reference else s.scopes
    (symbol.declaration, { s with scopes }, [])

/-- Makes a reference the last one to the symbol of a name; `false` if the name is not bound. -/
def updateReference (s : SymbolTable) (name : Name) (reference : Option NodeId) :
    Bool × SymbolTable :=
  match s.scopes.resolve? s.current name with
  | none => (false, s)
  | some (id, _) => (true, { s with scopes := s.scopes.refer id name reference })

/-- Enters a new scope inside the current one. -/
def push (s : SymbolTable) (node : Option NodeId) : ScopeId × SymbolTable :=
  let (id, scopes) := s.scopes.createChild s.current node
  (id, { s with scopes, current := id })

/-- Leaves the current scope, unless it is the global one. -/
def pop (s : SymbolTable) (tree : Tree) (location : Location) : SymbolTable × List Diagnostic :=
  let scope := s.scopes.get s.current
  match scope.parent with
  | none => (s, [SymbolIssue.popGlobal.diagnostic location])
  | some parent =>
    ({ s with current := parent },
      scope.unused.map fun symbol =>
        (SymbolIssue.unused symbol.name).diagnostic (tree.locationOf symbol.declaration))

/-- The symbols of the current scope, or of all scopes from the current one outward, each scope in
the order of definition. -/
def symbols (s : SymbolTable) (currentOnly : Bool) : List Symbol :=
  let ids := if currentOnly then [s.current] else s.scopes.chain s.current
  ids.flatMap fun id => (s.scopes.get id).symbols

end SymbolTable

end SemanticCore
