import SemanticCore.Number.Bits
import SemanticCore.Syntax.Traversal
import SemanticCore.Text.Quoted
import SemanticCore.Types.Spelling

/-!
# The text of a tree

Each node stands on a line of its own, in parentheses together with its children, which are
indented by two blanks more. After the kind come the payload, the type, the flags and the names of
the attributes, as far as there are any.
-/

namespace SemanticCore

/-- The character of a code. Codes from `0xd800` to `0xdfff` are halves of pairs, which no text of
the model holds; they show as the replacement character `0xfffd`. What is not a code at all has no
character. -/
def charOfCode? (code : Number) : Option Char :=
  match code.toNat? with
  | some n => if h : n.isValidChar then some (.ofNatAux n h)
    else if n < 0x110000 then some '\ufffd' else none
  | none => none

/-- An integer in decimal digits. -/
def intText (i : Int) : String :=
  let digits := Nat.toDigits 10 i.natAbs
  String.ofList (if i < 0 then '-' :: digits else digits)

/-- What stands after an imported name that goes by another one. -/
def otherName : Option Name → String
  | some n => " as " ++ n.text
  | none => ""

/-- The text of a node that lacks the payload of its kind: a value or an operator shows as
`undefined`, a name cannot be shown. -/
def NodeKind.showWithout (kind : NodeKind) : Except SyntaxError String :=
  match kind with
  | .boolLiteral | .floatLiteral | .binaryExpr | .assignmentExpr => return "undefined"
  | .unaryExpr => return "undefined postfix"
  | .rangeExpr => return ".."
  | .charLiteral => throw (.notCodePoint .nan)
  | .intLiteral | .stringLiteral | .importDeclaration | .importItem => throw (.noPayload kind)
  | _ => return ""

/-- Whether the nodes of a kind show something else than their name. -/
def NodeKind.hidesName : NodeKind → Bool
  | .boolLiteral | .intLiteral | .floatLiteral | .stringLiteral | .charLiteral | .arrayType
  | .unaryExpr | .binaryExpr | .assignmentExpr | .rangeExpr | .importDeclaration => true
  | _ => false

/-- The text of a payload; empty if there is nothing to show. -/
def Payload.show : Payload → Except SyntaxError String
  | .plain => return ""
  | .name n => return n.text
  | .bool value => return if value then "true" else "false"
  | .integer value => return intText value
  | .float bits => return (Number.ofBits bits).text
  | .text value => return Text.quoted value.text
  | .char code =>
    match charOfCode? code with
    | some c => return String.ofList ['\'', c, '\'']
    | none => throw (.notCodePoint code)
  | .arraySize size => return if (0 : Number).lt size then size.text else ""
  | .unary op before => return if before then op else op ++ " postfix"
  | .operator op => return op
  | .range inclusive => return if inclusive then "..=" else ".."
  | .importPath path localName => return Text.quoted path.text ++ otherName localName
  | .importItem item localName => return item.text ++ otherName localName

/-- The text of the payload of a node. -/
def Node.showPayload (n : Node) : Except SyntaxError String :=
  match n.payload with
  | .plain => n.kind.showWithout
  | .name name => if n.kind.hidesName then n.kind.showWithout else return name.text
  | payload => payload.show

/-- The names of the attributes of a node, each after a sign. Attributes that do not resolve or have
no name are left out. -/
def Tree.attributeNames (t : Tree) (n : Node) : String :=
  String.join <| n.attributes.map fun id =>
    match (t.get? id).bind Node.name? with
    | some name => " @" ++ name.text
    | none => ""

/-- What stands after the opening parenthesis of a node. -/
def Tree.header (t : Tree) (n : Node) : Except SyntaxError String := do
  let payload ← n.showPayload
  return n.kind.name ++ (if payload.isEmpty then "" else " " ++ payload)
    ++ (match n.type with
      | some type => " : " ++ type.spell
      | none => "")
    ++ (if n.flags = 0 then "" else " [" ++ n.flags.text ++ "]")
    ++ t.attributeNames n

/-- The lines printed so far, the last one first, and the depth of the next one. -/
structure Printed where
  lines : List String := []
  depth : Nat := 0

namespace Printed

/-- Begins the line of a node; what follows is indented more. -/
def openLine (p : Printed) (header : String) : Printed :=
  let indent := String.ofList (List.replicate (2 * p.depth) ' ')
  { lines := (indent ++ "(" ++ header) :: p.lines, depth := p.depth + 1 }

/-- Ends a node on the line that was printed last. -/
def closeLine (p : Printed) : Printed :=
  { lines := p.lines.modifyHead (· ++ ")"), depth := p.depth - 1 }

end Printed

/-- Opens a line when it enters a node, and closes it when it leaves. -/
def Tree.printer (t : Tree) : Visitor (Visit Printed) where
  enterNode := some fun n => do
    let header ← liftM (t.header n)
    modifyThe Printed (·.openLine header)
    return true
  leaveNode := some fun _ => modifyThe Printed (·.closeLine)

/-- The text of what is at and below a node. -/
def Tree.print (t : Tree) (root : NodeId) : Except SyntaxError String := do
  let printed ← t.visit root t.printer {}
  return "\n".intercalate printed.lines.reverse

end SemanticCore
