import SemanticCore.Arena.Basic
import SemanticCore.Interner.Builtin
import SemanticCore.Text.Hash

/-!
# Interned names

Every text is interned once, so that names are compared without looking at their characters. The
bytes of a text, followed by a zero byte, are kept in the arena. A reset forgets all texts and
starts a new era; a name of an earlier era differs from all names of the new one.

* `Interner.intern`: the name of a text.
* `Interner.lookup?`: the name of a text that is interned already.
* `Interner.reset`: forgets all texts but the built-in ones.
-/

namespace SemanticCore

/-- An interned text. Two names are the same exactly when they are equal: the era and the number
in it tell apart any two. -/
structure Name where
  era : Nat
  id : Nat
  text : String
  hash : UInt32
  view : View
  deriving DecidableEq, Repr, Inhabited

namespace Name

/-- The bytes of the text. -/
def length (n : Name) : Nat := n.view.size

/-- Whether the text is empty. -/
def isEmpty (n : Name) : Bool := n.length == 0

/-- Names are ordered as their texts are; a name equals itself alone. -/
def order (a b : Name) : Ordering := if a = b then .eq else Text.order a.text b.text

end Name

/-- The texts interned since the last reset, in order, the built-in names among them and the
keywords among these. The bytes that were stored are counted, with a zero byte for each text. -/
structure Interner where
  era : Nat := 0
  names : List Name := []
  empty : Name := default
  builtins : List (String × Name) := []
  builtinNames : List Name := []
  keywordNames : List Name := []
  memoryUsed : Nat := 0
  deriving Inhabited

namespace Interner

/-- The name of a text that is interned already. -/
def lookup? (s : Interner) (text : String) : Option Name := s.names.find? (·.text == text)

/-- Keeps the bytes of a text and a zero byte, and gives the bytes without the zero. -/
def store (a : Arena) (bytes : List UInt8) : View × Arena :=
  let (allocation, a) := a.place (bytes.length + 1) 1
  let a := a.modifyPage allocation.view.page fun b => b.write allocation.offset (bytes ++ [0])
  ({ allocation.view with size := bytes.length }, a)

/-- The name of a text, which is interned if it is not yet. -/
def intern (s : Interner) (a : Arena) (text : String) : Name × Interner × Arena :=
  match s.lookup? text with
  | some name => (name, s, a)
  | none =>
    let bytes := Text.bytes text
    let (view, a) := store a bytes
    let name : Name := { era := s.era, id := s.names.length, text, hash := Hash.fnv1a bytes, view }
    let memoryUsed := s.memoryUsed + (bytes.length + 1)
    (name, { s with names := s.names ++ [name], memoryUsed }, a)

/-- Texts with their names, which are interned one after the other. -/
def internAll (s : Interner) (a : Arena) :
    List String → List (String × Name) × Interner × Arena
  | [] => ([], s, a)
  | text :: texts =>
    let (name, s, a) := s.intern a text
    let (rest, s, a) := s.internAll a texts
    ((text, name) :: rest, s, a)

/-- The interner of an era: the empty text, then the built-in names. Interning the keywords once
more gives their names. -/
def start (era : Nat) (a : Arena) : Interner × Arena :=
  let s : Interner := { era }
  let (empty, s, a) := s.intern a ""
  let (builtins, s, a) := s.internAll a Builtin.names
  let (keywords, s, a) := s.internAll a Builtin.keywords
  let builtinNames := builtins.map Prod.snd
  let keywordNames := keywords.map Prod.snd
  ({ s with empty, builtins, builtinNames, keywordNames }, a)

/-- Forgets every text and interns the built-in names again. -/
def reset (s : Interner) (a : Arena) : Interner × Arena := start (s.era + 1) a

/-! ## Built-in names -/

/-- Whether a name is a built-in one of this era. -/
def isBuiltin (s : Interner) (n : Name) : Bool := s.builtinNames.contains n

/-- Whether a name is a keyword of this era. -/
def isKeyword (s : Interner) (n : Name) : Bool := s.keywordNames.contains n

/-- The built-in name of a text. -/
def builtin? (s : Interner) (text : String) : Option Name := (s.lookup? text).filter s.isBuiltin

/-- How many texts are interned. -/
def count (s : Interner) : Nat := s.names.length

end Interner

end SemanticCore
