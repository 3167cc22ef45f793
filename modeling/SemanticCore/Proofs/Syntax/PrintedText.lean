import Mathlib.Combinatorics.Enumerative.DyckWord
import Mathlib.Data.List.Forall2
import Mathlib.Tactic.Choose
import SemanticCore.Proofs.Syntax.Payload
import SemanticCore.Proofs.Syntax.VisitOrder

/-!
# The printed text of a subtree

The text of a node is its header after an opening parenthesis, the texts of its children, each on
lines of its own and indented by one level more, and a closing parenthesis (`Tree.Renders`). What
prints it goes through the nodes once, with a list of lines and a depth that it changes as it enters
and leaves them; a closing parenthesis goes to the end of the last line, whichever that is.

* `Printed.Adds`: some text was printed, and the depth is what it was.
* `Tree.Linked.exists_printed`: the events of a subtree print its text.
* `Tree.Linked.composed`: the text consists of a piece for each event, and its parentheses match.
* `ChildEdit.printed_run`: how every tree is printed that is built.
-/

namespace SemanticCore

/-! ## Lines -/

namespace Printed

/-- The blanks before what stands at a depth. -/
def indent (depth : Nat) : String := String.ofList (List.replicate (2 * depth) ' ')

def text (p : Printed) : String := "\n".intercalate p.lines.reverse

/-- What separates the next line from those before. -/
def separator (p : Printed) : String := if p.lines = [] then "" else "\n"

/-- More text was printed, and the depth is the same as before. -/
structure Adds (p : Printed) (more : String) (p' : Printed) : Prop where
  text_eq : p'.text = p.text ++ more
  depth_eq : p'.depth = p.depth
  lines_ne : p'.lines ≠ []

variable {p p' p'' : Printed} {header more more' : String}

theorem text_cons (p : Printed) (line : String) (depth : Nat) :
    text { lines := line :: p.lines, depth } = p.text ++ (p.separator ++ line) := by
  by_cases hLines : p.lines = []
  · simp [text, separator, hLines]
  · rw [text, List.reverse_cons, String.intercalate_append_of_ne_nil
      (List.reverse_ne_nil_iff.mpr hLines) (List.cons_ne_nil _ _), String.intercalate_singleton,
      separator, if_neg hLines, String.append_assoc]
    rfl

theorem text_openLine :
    (p.openLine header).text = p.text ++ (p.separator ++ (indent p.depth ++ "(" ++ header)) :=
  text_cons p _ (p.depth + 1)

theorem text_closeLine (hLines : p.lines ≠ []) : p.closeLine.text = p.text ++ ")" := by
  obtain ⟨lines, depth⟩ := p
  cases lines with
  | nil => exact absurd rfl hLines
  | cons line lines =>
    have hOpen := text_cons { lines } line depth
    have hClosed := text_cons { lines } (line ++ ")") (depth - 1)
    rw [hOpen]
    exact hClosed.trans (by simp only [String.append_assoc])

theorem Adds.nothing (hLines : p.lines ≠ []) : p.Adds "" p :=
  ⟨String.append_empty.symm, rfl, hLines⟩

theorem Adds.trans (h : p.Adds more p') (h' : p'.Adds more' p'') :
    p.Adds (more ++ more') p'' where
  text_eq := by rw [h'.text_eq, h.text_eq, String.append_assoc]
  depth_eq := h'.depth_eq.trans h.depth_eq
  lines_ne := h'.lines_ne

/-- A line is opened, more is printed, and the last line is closed. -/
theorem Adds.enclose (h : (p.openLine header).Adds more p') :
    p.Adds (p.separator ++ (indent p.depth ++ "(" ++ header ++ more ++ ")")) p'.closeLine where
  text_eq := by
    rw [text_closeLine h.lines_ne, h.text_eq, text_openLine]
    simp only [String.append_assoc]
  depth_eq := by
    rw [closeLine, h.depth_eq]
    rfl
  lines_ne := by
    obtain ⟨line, lines, hCons⟩ := List.exists_cons_of_ne_nil h.lines_ne
    simp [closeLine, hCons]

end Printed

open Printed (indent)

/-! ## Events -/

/-- What holds of some events with a text, and is kept if both go on, holds of the events of all
children if it holds of the events of each. -/
theorem flatMap_of_append {R : List VisitEvent → String → Prop} (hNil : R [] "")
    (hAppend : ∀ es es' more more', R es more → R es' more' → R (es ++ es') (more ++ more'))
    {ids : List NodeId} {es : NodeId → List VisitEvent} {texts : NodeId → String}
    (hEach : ∀ id ∈ ids, R (es id) (texts id)) :
    R (ids.flatMap es) (String.join (ids.map texts)) := by
  induction ids with
  | nil => exact hNil
  | cons id ids ih =>
    rw [List.flatMap_cons, List.map_cons, String.join_cons]
    exact hAppend _ _ _ _ (hEach id List.mem_cons_self)
      (ih fun k hk => hEach k (List.mem_cons_of_mem _ hk))

namespace VisitEvent

variable {t : Tree} {n : Node} {header : String} {p : Printed}

/-- The parenthesis that is printed. -/
def parenthesis : VisitEvent → DyckStep
  | enter _ => .U
  | leave _ => .D

theorem run_enter_printer (t : Tree) (n : Node) (p : Printed) :
    (t.printer.enter n).run p = t.header n >>= fun header => .ok (true, p.openLine header) := by
  show ((liftM (t.header n) : Visit Printed String) >>= fun header => _).run p = _
  cases t.header n <;> rfl

theorem follows_printer (t : Tree) : t.printer.Follows (fun _ => true) fun _ => True where
  enter n s b s' _ hRun := by
    rw [run_enter_printer] at hRun
    obtain ⟨header, -, hOk⟩ := bind_eq_ok.mp hRun
    cases hOk
    exact ⟨rfl, trivial⟩
  leave _ _ _ _ _ := trivial

theorem run_fire_enter (hHeader : t.header n = .ok header) :
    ((enter n).fire t.printer).run p = .ok ((), p.openLine header) := by
  rw [fire, StateT.run_bind, run_enter_printer, hHeader]
  rfl

/-- Where something is printed already, and at a depth, some events print more text. -/
def Prints (t : Tree) (depth : Nat) (es : List VisitEvent) (more : String) : Prop :=
  ∀ p : Printed, p.lines ≠ [] → p.depth = depth → ∃ p',
    (replay t.printer es).run p = .ok ((), p') ∧ p.Adds more p'

theorem prints_nil (t : Tree) (depth : Nat) : Prints t depth [] "" :=
  fun p hLines _ => ⟨p, rfl, .nothing hLines⟩

theorem Prints.append {depth : Nat} {es es' : List VisitEvent} {more more' : String}
    (h : Prints t depth es more) (h' : Prints t depth es' more') :
    Prints t depth (es ++ es') (more ++ more') := by
  intro p hLines hDepth
  obtain ⟨p₁, hFirst, hAdds⟩ := h p hLines hDepth
  obtain ⟨p₂, hRest, hMore⟩ := h' p₁ hAdds.lines_ne (hAdds.depth_eq.trans hDepth)
  refine ⟨p₂, ?_, hAdds.trans hMore⟩
  rw [replay_append, StateT.run_bind, hFirst]
  exact hRest

end VisitEvent

/-! ## Texts -/

namespace Tree

/-- The text of a node at a depth: its header in parentheses together with the texts of its
children, each after a line break and at the next depth. -/
inductive Renders (t : Tree) : NodeId → Nat → String → Prop
  | node {id : NodeId} {n : Node} {header : String} {texts : NodeId → String} {depth : Nat}
      (hGet : t.get? id = some n) (hHeader : t.header n = .ok header)
      (hBelow : ∀ c ∈ n.children, Renders t c (depth + 1) (texts c)) :
      Renders t id depth (indent depth ++ "(" ++ header ++
        String.join (n.children.map fun c => "\n" ++ texts c) ++ ")")

/-- What is printed when a node below a root is entered and when it is left. Whatever is entered
stands on a line of its own, with two blanks before it for each level that it is deeper than the
root. -/
inductive Piece (t : Tree) (root : NodeId) : VisitEvent → String → Prop
  | opened {n : Node} {header : String} {above depth : Nat} (hHeader : t.header n = .ok header)
      (hRoot : t.depth root = .ok above) (hDepth : t.depth n.id = .ok (above + depth)) :
      Piece t root (.enter n)
        ((if n.id = root then "" else "\n") ++ (indent depth ++ "(" ++ header))
  | closed {n : Node} : Piece t root (.leave n) ")"

/-- A text is composed of what some events print, and the parentheses match. -/
structure Composed (t : Tree) (root : NodeId) (es : List VisitEvent) (text : String) : Prop where
  pieces : ∃ pieces, List.Forall₂ (t.Piece root) es pieces ∧ String.join pieces = text
  balanced : ∃ w : DyckWord, w.toList = es.map VisitEvent.parenthesis

/-- A subtree is printed as a text. -/
structure PrintsAs (t : Tree) (root : NodeId) (text : String) : Prop where
  print : t.print root = .ok text
  renders : t.Renders root 0 text
  unique : ∀ text', t.Renders root 0 text' → text' = text
  composed : t.Composed root (t.events (fun _ => true) root) text

variable {t : Tree} {strict : Prop} {root id c : NodeId} {n : Node} {depth k : Nat}
  {text text' : String}

theorem Renders.unique (h : t.Renders id depth text) (h' : t.Renders id depth text') :
    text = text' := by
  induction h generalizing text' with
  | node hGet hHeader hBelow ih =>
    cases h' with
    | node hGet' hHeader' hBelow' =>
      obtain rfl := Option.some.inj (hGet.symm.trans hGet')
      obtain rfl := Except.ok.inj (hHeader.symm.trans hHeader')
      rw [List.map_congr_left fun c hc => congrArg ("\n" ++ ·) (ih c hc (hBelow' c hc))]

namespace Linked

theorem exists_renders (h : t.Linked strict)
    (hHeaders : ∀ n ∈ t.nodes, ∃ header, t.header n = .ok header) (hRoot : (t.get? root).isSome) :
    ∀ depth, ∃ text, t.Renders root depth text := by
  refine h.descend (motive := fun _ id => (t.get? id).isSome →
    ∀ depth, ∃ text, t.Renders id depth text) ?_ root hRoot
  intro _ id ih hId depth
  obtain ⟨n, hGet⟩ := Option.isSome_iff_exists.mp hId
  obtain ⟨header, hHeader⟩ := hHeaders n (h.mem_nodes_of_get? hGet)
  rw [childrenOf_of_get? hGet] at ih
  have hBelow : ∀ c, c ∈ n.children → ∃ text, t.Renders c (depth + 1) text := fun c hc =>
    ih c hc (h.resolve hGet c (.inr hc)) (depth + 1)
  choose! texts hTexts using hBelow
  exact ⟨_, .node hGet hHeader hTexts⟩

/-! ## Printing -/

theorem events_all (h : t.Linked strict) (hGet : t.get? id = some n) :
    t.events (fun _ => true) id =
      .enter n :: (n.children.flatMap (t.events fun _ => true) ++ [.leave n]) := by
  rw [h.events_eq hGet, eventsBelow, if_pos rfl]

open VisitEvent in
/-- The events of a subtree print its text on lines of its own. -/
theorem exists_printed (h : t.Linked strict) (hRenders : t.Renders id depth text) {p : Printed}
    (hDepth : p.depth = depth) :
    ∃ p', (replay t.printer (t.events (fun _ => true) id)).run p = .ok ((), p') ∧
      p.Adds (p.separator ++ text) p' := by
  induction hRenders generalizing p with
  | @node id n header texts depth hGet hHeader hBelow ih =>
    subst hDepth
    have hEach : ∀ c ∈ n.children,
        Prints t (p.depth + 1) (t.events (fun _ => true) c) ("\n" ++ texts c) := by
      intro c hc q hLines hDepth
      obtain ⟨q', hRun, hAdds⟩ := ih c hc hDepth
      rw [Printed.separator, if_neg hLines] at hAdds
      exact ⟨q', hRun, hAdds⟩
    obtain ⟨p', hChildren, hAdds⟩ :=
      flatMap_of_append (prints_nil t _) (fun _ _ _ _ => Prints.append) hEach (p.openLine header)
        (List.cons_ne_nil _ _) rfl
    refine ⟨p'.closeLine, ?_, hAdds.enclose⟩
    rw [h.events_all hGet, replay, StateT.run_bind, run_fire_enter hHeader, ok_bind,
      replay_append, StateT.run_bind, hChildren]
    rfl

theorem print_eq (h : t.Linked strict) (hRenders : t.Renders root 0 text) :
    t.print root = .ok text := by
  obtain ⟨p, hRun, hAdds⟩ := h.exists_printed hRenders (p := {}) rfl
  have hText : p.text = text := by
    rw [hAdds.text_eq]
    simp [Printed.text, Printed.separator]
  cases hRenders with
  | node hGet =>
    rw [Tree.print, h.visit_eq (VisitEvent.follows_printer t), node_of_get? hGet, ok_bind, hRun,
      ← hText]
    rfl

end Linked

/-! ## Pieces -/

theorem composed_nil (t : Tree) (root : NodeId) : t.Composed root [] "" :=
  ⟨⟨[], .nil, rfl⟩, ⟨0, rfl⟩⟩

theorem Composed.append {es es' : List VisitEvent} (h : t.Composed root es text)
    (h' : t.Composed root es' text') : t.Composed root (es ++ es') (text ++ text') where
  pieces := by
    obtain ⟨pieces, hPieces, hText⟩ := h.pieces
    obtain ⟨pieces', hPieces', hText'⟩ := h'.pieces
    exact ⟨pieces ++ pieces', List.rel_append hPieces hPieces', by
      rw [String.join_append, hText, hText']⟩
  balanced := by
    obtain ⟨v, hv⟩ := h.balanced
    obtain ⟨w, hw⟩ := h'.balanced
    exact ⟨v + w, by rw [List.map_append, ← hv, ← hw]; rfl⟩

theorem Composed.enclose {es : List VisitEvent} {first : String} (h : t.Composed root es text)
    (hFirst : t.Piece root (.enter n) first) :
    t.Composed root (.enter n :: (es ++ [.leave n])) (first ++ text ++ ")") where
  pieces := by
    obtain ⟨pieces, hPieces, hText⟩ := h.pieces
    refine ⟨first :: (pieces ++ [")"]),
      .cons hFirst (List.rel_append hPieces (.cons .closed .nil)), ?_⟩
    rw [String.join_cons, String.join_append, hText, String.append_assoc]
    rfl
  balanced := by
    obtain ⟨w, hw⟩ := h.balanced
    exact ⟨w.nest, by rw [List.map_cons, List.map_append, ← hw]; rfl⟩

namespace Linked

theorem depth_child (h : t.Linked strict) (hGet : t.get? id = some n) (hc : c ∈ n.children)
    (hDepth : t.depth id = .ok k) : t.depth c = .ok (k + 1) := by
  obtain ⟨m, hChild⟩ := Option.isSome_iff_exists.mp (h.resolve hGet c (.inr hc))
  obtain ⟨ns, hChain, hAncestors⟩ := h.rooted.exists_chain hGet
  obtain rfl := Except.ok.inj ((WellLinked.depth_eq hAncestors).symm.trans hDepth)
  have hParent : m.parent = some id := by
    rw [← parent?_of_get? hChild]
    exact h.forest.parent_of_mem (childrenOf_of_get? hGet ▸ hc)
  have hUp : t.ParentChain (some id) (n :: ns) := .link hGet hChain
  have hAbove : t.ancestors c = .ok (n :: ns) := by
    rw [ancestors, node_of_get? hChild, ok_bind, hParent]
    exact hUp.chain_eq _ (hUp.length_le h.numbered h.forest.grounded)
  exact WellLinked.depth_eq hAbove

theorem composed (h : t.Linked strict) (hRenders : t.Renders id depth text) {above : Nat}
    (hRoot : t.depth root = .ok above) (hDepth : t.depth id = .ok (above + depth)) :
    t.Composed root (t.events (fun _ => true) id) ((if id = root then "" else "\n") ++ text) := by
  induction hRenders with
  | @node id n header texts depth hGet hHeader hBelow ih =>
    obtain rfl := h.numbered.id_of_get? hGet
    have hEach : ∀ c ∈ n.children,
        t.Composed root (t.events (fun _ => true) c) ("\n" ++ texts c) := by
      intro c hc
      have hDeeper := h.depth_child hGet hc hDepth
      have hChild := ih c hc hDeeper
      -- a child is deeper than the root, so it is another node
      have hOther : c ≠ root := by
        rintro rfl
        have hSame := Except.ok.inj (hDeeper.symm.trans hRoot)
        omega
      rwa [if_neg hOther] at hChild
    have hAll := (flatMap_of_append (composed_nil t root) (fun _ _ _ _ => Composed.append)
      hEach).enclose (.opened hHeader hRoot hDepth)
    rw [h.events_all hGet]
    simpa only [String.append_assoc] using hAll

theorem exists_printsAs (h : t.Linked strict) (hTyped : t.Typed)
    (hCodes : ∀ n ∈ t.nodes, ∀ code, n.payload = .char code → code.IsCodePoint)
    (hRoot : (t.get? root).isSome) : ∃ text, t.PrintsAs root text := by
  have hHeaders : ∀ n ∈ t.nodes, ∃ header, t.header n = .ok header := fun n hn =>
    t.exists_header (hTyped n.id n (h.numbered.get?_id hn)) (hCodes n hn)
  obtain ⟨r, hGet⟩ := Option.isSome_iff_exists.mp hRoot
  obtain ⟨ns, -, hAncestors⟩ := h.rooted.exists_chain hGet
  have hDepth := WellLinked.depth_eq hAncestors
  obtain ⟨text, hRenders⟩ := h.exists_renders hHeaders hRoot 0
  have hComposed := h.composed hRenders hDepth hDepth
  rw [if_pos rfl, String.empty_append] at hComposed
  exact ⟨text, h.print_eq hRenders, hRenders, fun _ hOther => hOther.unique hRenders, hComposed⟩

end Linked

end Tree

namespace ChildEdit

/-- A block holds a statement, and this a character. -/
def characterBlock : List ChildEdit :=
  [.build (.ok (.charLiteralOf "a")) default, .build (.ok (.exprStmt (some 0))) default,
    .build (.ok (.block [some 1])) default]

/-- Whatever is built in an empty tree, with the payloads that go with the kinds, and however the
children are edited: every subtree is printed, if its characters are some. -/
theorem printed_run (generation : Nat) (edits : List ChildEdit) (hTyped : ∀ e ∈ edits, e.IsTyped)
    (hCodes : ∀ n ∈ (run edits (Tree.empty generation)).nodes, ∀ code,
      n.payload = .char code → code.IsCodePoint) (root : Node)
    (hRoot : root ∈ (run edits (Tree.empty generation)).nodes) :
    ∃ text, (run edits (Tree.empty generation)).PrintsAs root.id text := by
  have h : (run edits (Tree.empty generation)).WellLinked :=
    wellLinked_run (Tree.wellLinked_empty generation) edits
  exact h.exists_printsAs (typed_run generation edits hTyped) hCodes
    (Option.isSome_of_eq_some (h.numbered.get?_id hRoot))

/-- The three last parentheses stand on one line. -/
theorem printed_run_character :
    (∀ e ∈ characterBlock, e.IsTyped) ∧
    (∀ n ∈ (run characterBlock (Tree.empty 0)).nodes, ∀ code,
      n.payload = .char code → code.IsCodePoint) ∧
    ∃ root ∈ (run characterBlock (Tree.empty 0)).nodes,
      (run characterBlock (Tree.empty 0)).PrintsAs root.id
        "(BlockStmt\n  (ExprStmt\n    (CharLiteral 'a')))" := by
  have hTyped : ∀ e ∈ characterBlock, e.IsTyped := by
    simp [characterBlock, IsTyped, Form.charLiteralOf, Form.charLiteral, Form.exprStmt, Form.block,
      NodeKind.carries, NodeKind.hasName, NodeKind.hasValue]
  have hCodes : ∀ n ∈ (run characterBlock (Tree.empty 0)).nodes, ∀ code,
      n.payload = .char code → code.IsCodePoint := by
    have hPayload : ∀ n ∈ (run characterBlock (Tree.empty 0)).nodes,
        n.payload = .plain ∨ n.payload = .char (.ofNat 97) := by
      decide +kernel
    intro n hn code hCode
    rcases hPayload n hn with hPlain | hChar
    · exact nomatch hPlain.symm.trans hCode
    · exact ⟨97, by decide, (Payload.char.inj (hChar.symm.trans hCode)).symm⟩
  have h := wellLinked_run (Tree.wellLinked_empty 0) characterBlock
  have hSome : ((run characterBlock (Tree.empty 0)).get? 2).isSome := by decide +kernel
  obtain ⟨root, hRoot, hId⟩ := h.exists_mem_nodes hSome
  obtain ⟨text, hPrints⟩ := printed_run 0 characterBlock hTyped hCodes root hRoot
  have hPrint : (run characterBlock (Tree.empty 0)).print 2 =
      .ok "(BlockStmt\n  (ExprStmt\n    (CharLiteral 'a')))" := by
    decide +kernel
  obtain rfl := Except.ok.inj ((hId ▸ hPrints.print).symm.trans hPrint)
  exact ⟨hTyped, hCodes, root, hRoot, hPrints⟩

end ChildEdit

end SemanticCore
