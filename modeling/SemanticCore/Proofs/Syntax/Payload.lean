import SemanticCore.Proofs.Number.Natural
import SemanticCore.Proofs.Syntax.Construction

/-!
# What the nodes of a kind carry

A node carries what its kind is for: a name, a value, an operator or nothing besides its links. The
constructs give each node what its kind carries, with the exception of those to which the kind is
given by its name. If these are given kinds of theirs, every node of every tree that is built
carries what it should (`ChildEdit.typed_run`), and so all but a character that is none can be shown
(`Tree.exists_header`).
-/

namespace SemanticCore

/-! ## Kinds and payloads -/

namespace NodeKind

/-- The kinds that carry a name and nothing else. -/
def hasName : NodeKind → Bool
  | .identifier | .pathSegment | .primitiveType | .fieldExpr | .memberExpr | .macroCallExpr
  | .variableDeclaration | .funcDeclaration | .funcParamDeclaration | .structDeclaration
  | .classDeclaration | .fieldDeclaration | .methodDeclaration | .enumDeclaration
  | .enumOptionDeclaration | .typeDeclaration | .moduleDeclaration | .typeParameterDeclaration
  | .macroDeclaration | .testDeclaration | .attributeTag | .annotationTag => true
  | _ => false

/-- The kinds that carry something of their own. -/
def hasValue : NodeKind → Bool
  | .boolLiteral | .intLiteral | .floatLiteral | .stringLiteral | .charLiteral | .arrayType
  | .unaryExpr | .binaryExpr | .assignmentExpr | .rangeExpr | .importDeclaration
  | .importItem => true
  | _ => false

/-- The payloads that go with a kind. -/
def carries (kind : NodeKind) : Payload → Bool
  | .plain => !kind.hasName && !kind.hasValue
  | .name _ => kind.hasName
  | .bool _ => kind == .boolLiteral
  | .integer _ => kind == .intLiteral
  | .float _ => kind == .floatLiteral
  | .text _ => kind == .stringLiteral
  | .char _ => kind == .charLiteral
  | .arraySize _ => kind == .arrayType
  | .unary .. => kind == .unaryExpr
  | .operator _ => kind == .binaryExpr || kind == .assignmentExpr
  | .range _ => kind == .rangeExpr
  | .importPath .. => kind == .importDeclaration
  | .importItem .. => kind == .importItem

theorem showWithout_eq {kind : NodeKind} (h : kind.carries .plain) :
    kind.showWithout = .ok "" := by
  cases kind <;> first | rfl | cases h

theorem hidesName_eq_false {kind : NodeKind} {name : Name} (h : kind.carries (.name name)) :
    kind.hidesName = false := by
  cases kind <;> first | rfl | cases h

end NodeKind

/-- Only the constructs to which the kind is given can make a node that does not carry what goes
with its kind. -/
theorem Form.Takes.carries {call : Except SyntaxError Form} {form : Form} {args : Arguments}
    (h : Form.Takes call args) (hForm : call = .ok form)
    (hPlain : ∀ (kind : NodeKind) children, call = Form.plain kind.name children →
      kind.carries .plain)
    (hNamed : ∀ (kind : NodeKind) name children, call = Form.named kind.name name children →
      kind.carries (.name name)) : form.kind.carries form.payload := by
  cases h with
  | plain kind children =>
    rw [Form.plain_name] at hForm
    cases hForm
    exact hPlain kind children rfl
  | named kind name children =>
    rw [Form.named_name] at hForm
    cases hForm
    exact hNamed kind name children rfl
  | _ =>
    cases hForm
    rfl

/-! ## Trees -/

namespace Tree

/-- Every node carries what goes with its kind. -/
def Typed (t : Tree) : Prop := ∀ id n, t.get? id = some n → n.kind.carries n.payload

variable {t t' : Tree} {id : NodeId} {n : Node}

theorem typed_empty (generation : Nat) : (empty generation).Typed := by
  intro id n hGet
  cases (wellLinked_empty generation).mem_nodes_of_get? hGet

theorem Edited.onlyLinks (h : t.Edited t') : t.OnlyLinks t' := by
  cases h with
  | same => exact .refl t
  | place => exact OnlyLinks.moveTo.trans .setChildren
  | replace => exact (OnlyLinks.moveTo.trans .setChildren).trans .setParent
  | remove => exact OnlyLinks.setChildren.trans .setParent

namespace Typed

theorem edited (h : t.Typed) (hEdit : t.Edited t') : t'.Typed := by
  intro id n hGet
  rw [hEdit.onlyLinks.get?_eq] at hGet
  obtain ⟨m, hm, rfl⟩ := Option.map_eq_some_iff.mp hGet
  exact h id m hm

theorem setFlags (h : t.Typed) (flags : Flags) :
    (t.modify id fun n => { n with flags }).Typed := by
  intro k n hGet
  rw [get?_modify] at hGet
  split at hGet
  · obtain ⟨m, hm, rfl⟩ := Option.map_eq_some_iff.mp hGet
    exact h k m hm
  · exact h k n hGet

theorem create (h : t.Typed) {location : Location} {kind : NodeKind} {payload : Payload}
    (hCarries : kind.carries payload) (hNew : t.create location kind payload = .ok (id, t')) :
    t'.Typed := by
  obtain ⟨-, -, -, hGet⟩ := create_eq_ok hNew
  intro k n hn
  rw [hGet] at hn
  split at hn
  · cases hn
    exact hCarries
  · exact h k n hn

/-- What an edit of children does is known of rooted trees, so this is kept as well. -/
theorem invariant : PayloadInvariant (fun kind payload => kind.carries payload)
    fun t => t.Rooted ∧ t.Typed where
  noop := rfl
  segment _ := rfl
  create hCarries hNew h := ⟨h.1.create hNew, h.2.create hCarries hNew⟩
  addChild hAdd h := by
    have hEdit := addChild_edited h.1 hAdd
    exact ⟨h.1.edited hEdit, h.2.edited hEdit⟩
  setFlags h := ⟨h.1.modify (fun _ => rfl) (fun _ => rfl) fun _ => rfl, h.2.setFlags _⟩

end Typed

end Tree

namespace ChildEdit

/-- The form of a node that is built has the payload that goes with its kind. -/
def IsTyped : ChildEdit → Prop
  | .build (.ok form) _ => form.kind.carries form.payload
  | _ => True

theorem keeps_typed_step {e : ChildEdit} (hTyped : e.IsTyped) :
    e.step.Keeps fun t => t.Rooted ∧ t.Typed := by
  intro t h
  rcases edited_step h.1 e with ⟨form, location, rfl⟩ | hEdit
  · exact Build.keeps_discard (Tree.Typed.invariant.keeps_build hTyped location) t h
  · exact ⟨h.1.edited hEdit, h.2.edited hEdit⟩

theorem keeps_typed_run {t : Tree} (edits : List ChildEdit) (hTyped : ∀ e ∈ edits, e.IsTyped)
    (h : t.Rooted ∧ t.Typed) : (run edits t).Rooted ∧ (run edits t).Typed := by
  induction edits generalizing t with
  | nil => exact h
  | cons e rest ih =>
    exact ih (fun e' he' => hTyped e' (List.mem_cons_of_mem _ he'))
      (keeps_typed_step (hTyped e List.mem_cons_self) t h)

theorem typed_run (generation : Nat) (edits : List ChildEdit) (hTyped : ∀ e ∈ edits, e.IsTyped) :
    (run edits (Tree.empty generation)).Typed :=
  (keeps_typed_run edits hTyped
    ⟨(Tree.wellLinked_empty generation).rooted, Tree.typed_empty generation⟩).2

end ChildEdit

/-! ## Headers -/

/-- The characters have codes from zero to a greatest one. -/
def Number.IsCodePoint (code : Number) : Prop := ∃ k : Nat, k < 0x110000 ∧ code = .ofNat k

theorem exists_charOfCode? {code : Number} (h : code.IsCodePoint) :
    ∃ c, charOfCode? code = some c := by
  obtain ⟨k, hk, rfl⟩ := h
  unfold charOfCode?
  rw [Number.toNat?_ofNat]
  by_cases hValid : k.isValidChar
  · exact ⟨_, dif_pos hValid⟩
  · exact ⟨_, (dif_neg hValid).trans (if_pos hk)⟩

theorem Payload.exists_show {payload : Payload}
    (hCode : ∀ code, payload = .char code → code.IsCodePoint) :
    ∃ text, payload.show = .ok text := by
  cases payload with
  | char code =>
    obtain ⟨c, hChar⟩ := exists_charOfCode? (hCode code rfl)
    exact ⟨_, by rw [Payload.show, hChar]; rfl⟩
  | _ => exact ⟨_, rfl⟩

/-- A node that carries what goes with its kind can be shown, if it is not a character literal with
a code that no character has. -/
theorem Tree.exists_header (t : Tree) {n : Node} (hCarries : n.kind.carries n.payload)
    (hCode : ∀ code, n.payload = .char code → code.IsCodePoint) :
    ∃ header, t.header n = .ok header := by
  have hPayload : ∃ text, n.showPayload = .ok text := by
    unfold Node.showPayload
    split
    · rename_i hPlain
      exact ⟨_, NodeKind.showWithout_eq (hPlain ▸ hCarries)⟩
    · rename_i name hName
      rw [NodeKind.hidesName_eq_false (hName ▸ hCarries)]
      exact ⟨name.text, rfl⟩
    · exact Payload.exists_show hCode
  obtain ⟨text, hText⟩ := hPayload
  exact ⟨_, by rw [header, hText]; rfl⟩

end SemanticCore
