import SemanticCore.Arena.Pool
import SemanticCore.Interner.Basic

/-!
# Scopes

Scopes are kept in a store and known by their place in it. A scope holds the symbols defined in it,
in order; a scope made inside another one comes later than that one, so the chain of enclosing
scopes ends.

* `Scopes.define`: binds a name in one scope, once.
* `Scopes.chain`: a scope and the scopes around it, innermost first.
* `Scopes.resolve?`: the innermost binding of a name.
-/

namespace SemanticCore

/-- The place of a scope in its store. -/
abbrev ScopeId := Nat

/-- A name bound in a scope: its place in the order of definitions, the node that declares it, and
the node that referred to it last. -/
structure Symbol where
  index : Nat
  name : Name
  declaration : Option Handle
  lastReference : Option Handle := none
  deriving DecidableEq, Repr, Inhabited

/-- Whether a reference to a symbol was noted. -/
def Symbol.isReferenced (s : Symbol) : Bool := s.lastReference.isSome

/-- A scope: the node that opened it, the scope around it, its level, its symbols in the order of
definition, and the scopes made inside it. -/
structure Scope where
  node : Option Handle
  parent : Option ScopeId
  level : Nat
  symbols : List Symbol := []
  nested : List ScopeId := []
  deriving DecidableEq, Repr, Inhabited

namespace Scope

/-- Whether no scope is around a scope. -/
def isGlobal (s : Scope) : Bool := s.parent.isNone

/-- The symbol of a name in this scope alone. -/
def find? (s : Scope) (name : Name) : Option Symbol := s.symbols.find? (·.name == name)

/-- Binds a name that is not bound in this scope yet. -/
def define? (s : Scope) (name : Name) (declaration : Option Handle) : Option (Symbol × Scope) :=
  match s.find? name with
  | some _ => none
  | none =>
    let symbol : Symbol := { index := s.symbols.length, name, declaration }
    some (symbol, { s with symbols := s.symbols ++ [symbol] })

/-- Notes a reference to the symbol of a name, in place of an earlier one. -/
def refer (s : Scope) (name : Name) (reference : Option Handle) : Scope :=
  { s with symbols := s.symbols.map fun symbol =>
      if symbol.name = name then { symbol with lastReference := reference } else symbol }

/-- The symbols that were not referred to, in the order of definition. -/
def unused (s : Scope) : List Symbol := s.symbols.filter (!·.isReferenced)

end Scope

/-- The scopes of a store, in the order in which they were made. -/
structure Scopes where
  items : Array Scope := #[]
  deriving Inhabited

namespace Scopes

/-- A scope of the store. -/
def get (s : Scopes) (id : ScopeId) : Scope := s.items.getD id default

/-- Changes a scope of the store. -/
def modify (s : Scopes) (id : ScopeId) (f : Scope → Scope) : Scopes :=
  { s with items := s.items.modify id f }

/-- A new scope with no scope around it. -/
def create (s : Scopes) (node : Option Handle) : ScopeId × Scopes :=
  (s.items.size, { s with items := s.items.push { node, parent := none, level := 0 } })

/-- A new scope inside another one. -/
def createChild (s : Scopes) (parent : ScopeId) (node : Option Handle) : ScopeId × Scopes :=
  let id := s.items.size
  let s := s.modify parent fun p => { p with nested := p.nested ++ [id] }
  (id, { s with
    items := s.items.push { node, parent := some parent, level := (s.get parent).level + 1 } })

/-- Binds a name in a scope; `none` if it is bound there. -/
def define (s : Scopes) (id : ScopeId) (name : Name) (declaration : Option Handle) :
    Option Symbol × Scopes :=
  match (s.get id).define? name declaration with
  | some (symbol, scope) => (some symbol, s.modify id fun _ => scope)
  | none => (none, s)

/-- A scope and at most `limit` scopes around it. -/
def chainWithin (s : Scopes) : Nat → ScopeId → List ScopeId
  | 0, id => [id]
  | limit + 1, id =>
    match (s.get id).parent with
    | some parent => id :: s.chainWithin limit parent
    | none => [id]

/-- A scope and the scopes around it, innermost first. -/
def chain (s : Scopes) (id : ScopeId) : List ScopeId := s.chainWithin s.items.size id

/-- The innermost binding of a name, with its scope. -/
def resolve? (s : Scopes) (id : ScopeId) (name : Name) : Option (ScopeId × Symbol) :=
  (s.chain id).findSome? fun i => ((s.get i).find? name).map (i, ·)

/-- Notes a reference to the symbol of a name in one scope. -/
def refer (s : Scopes) (id : ScopeId) (name : Name) (reference : Option Handle) : Scopes :=
  s.modify id (·.refer name reference)

end Scopes

end SemanticCore
