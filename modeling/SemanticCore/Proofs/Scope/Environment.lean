import SemanticCore.Scope.SymbolTable

/-!
# Lexical environments

What a symbol table is meant to be: a stack of frames, innermost first, each with the names that are
bound in one scope in the order of their definitions. `Environment.step` says what an operation
answers, how it changes the stack, and what it reports.

* `Environment.find?`, `Environment.refer`: the innermost binding of a name.
* `SymbolOp`, `SymbolAnswer`: the operations and what they answer.
* `Environment.run`: operations in order.
-/

namespace SemanticCore

/-- What a name is bound to, and the last reference to it. -/
structure Binding where
  name : Name
  declaration : Option NodeId
  lastReference : Option NodeId

def Binding.symbol (index : Nat) (b : Binding) : Symbol :=
  { index, name := b.name, declaration := b.declaration, lastReference := b.lastReference }

/-- The bindings of one scope in the order of their definitions. -/
abbrev Frame := List Binding

namespace Frame

/-- The symbols of a frame; the index of each is its place. -/
def symbols (f : Frame) : List Symbol := f.mapIdx Binding.symbol

def find? (f : Frame) (name : Name) : Option Symbol := f.symbols.find? (·.name == name)

def add (f : Frame) (name : Name) (declaration : Option NodeId) : Frame :=
  f ++ [{ name, declaration, lastReference := none }]

/-- The frame with a reference to the one binding of a name. -/
def refer (f : Frame) (name : Name) (reference : Option NodeId) : Frame :=
  f.modify (f.findIdx (·.name == name)) fun b => { b with lastReference := reference }

/-- The bindings that nothing refers to. -/
def unused (f : Frame) : Frame := f.filter (·.lastReference.isNone)

end Frame

/-- The frames of nested scopes, innermost first. -/
abbrev Environment := List Frame

/-- An operation on a symbol table. -/
inductive SymbolOp where
  | define (name : Name) (declaration : Option NodeId) (location : Location)
  | lookup (name : Name) (location : Location) (reference : Option NodeId)
  | find (name : Name)
  | update (name : Name) (reference : NodeId)
  | push (node : Option NodeId)
  | pop (location : Location)
  | symbols (currentOnly : Bool)

inductive SymbolAnswer where
  | none
  | success (b : Bool)
  | declaration (node : Option NodeId)
  | symbol (s : Option Symbol)
  | symbols (ss : List Symbol)

namespace Environment

def find? : Environment → Name → Option Symbol
  | [], _ => none
  | f :: fs, name => (Frame.find? f name).or (find? fs name)

/-- The environment with a reference to the innermost binding of a name. -/
def refer : Environment → Name → Option NodeId → Environment
  | [], _, _ => []
  | f :: fs, name, reference =>
    if (Frame.find? f name).isSome then Frame.refer f name reference :: fs
    else f :: refer fs name reference

/-- Binds a name that the innermost frame does not bind. -/
def define (tree : Tree) (name : Name) (declaration : Option NodeId) (location : Location) :
    Environment → Bool × Environment × List Diagnostic
  | [] => (false, [], [])
  | f :: fs =>
    match Frame.find? f name with
    | none => (true, Frame.add f name declaration :: fs, [])
    | some previous =>
      (false, f :: fs, [(SymbolIssue.redefinition name).diagnostic location
        [⟨"Previous definition was here",
          (previous.declaration.bind tree.get?).elim Location.unknown Node.location⟩]])

/-- Leaves the innermost frame, and reports what was not referred to in it. -/
def pop (tree : Tree) (location : Location) : Environment → Environment × List Diagnostic
  | f :: g :: fs =>
    (g :: fs, (Frame.unused f).map fun b =>
      (SymbolIssue.unused b.name).diagnostic
        ((b.declaration.bind tree.get?).elim Location.unknown Node.location))
  | env => (env, [SymbolIssue.popGlobal.diagnostic location])

/-- The declaration of the innermost binding of a name, which a reference is noted at. -/
def lookup (name : Name) (location : Location) (reference : Option NodeId) (env : Environment) :
    Option NodeId × Environment × List Diagnostic :=
  match env.find? name with
  | none => (none, env, [(SymbolIssue.undeclared name).diagnostic location])
  | some symbol =>
    (symbol.declaration, if reference.isSome then env.refer name reference else env, [])

/-- Notes a reference at the innermost binding of a name; `false` if there is none. -/
def update (name : Name) (reference : NodeId) (env : Environment) : Bool × Environment :=
  match env.find? name with
  | none => (false, env)
  | some _ => (true, env.refer name (some reference))

def symbols (currentOnly : Bool) (env : Environment) : List Symbol :=
  (if currentOnly then env.take 1 else env).flatMap Frame.symbols

/-- What an operation answers, the environment after it, and what it reports. -/
def step (env : Environment) (tree : Tree) :
    SymbolOp → SymbolAnswer × Environment × List Diagnostic
  | .define name declaration location =>
    (.success (env.define tree name declaration location).1,
      (env.define tree name declaration location).2)
  | .lookup name location reference =>
    (.declaration (env.lookup name location reference).1,
      (env.lookup name location reference).2)
  | .find name => (.symbol (env.find? name), env, [])
  | .update name reference =>
    (.success (env.update name reference).1, (env.update name reference).2, [])
  | .push _ => (.none, [] :: env, [])
  | .pop location => (.none, env.pop tree location)
  | .symbols currentOnly => (.symbols (env.symbols currentOnly), env, [])

/-- Operations in order, each with the tree as it is at the time. -/
def run (env : Environment) :
    List (Tree × SymbolOp) → List SymbolAnswer × Environment × List Diagnostic
  | [] => ([], env, [])
  | (tree, op) :: ops =>
    let first := env.step tree op
    let rest := run first.2.1 ops
    (first.1 :: rest.1, rest.2.1, first.2.2 ++ rest.2.2)

end Environment

end SemanticCore
