import SemanticCore.Proofs.Renaming.Values
import SemanticCore.Syntax.Form

/-!
# Renaming of trees

The nodes of a renamed tree have renamed handles, and so have their links; all else that a node
holds is renamed, too. No operation on trees looks at more of a handle than which node it is of, so
each of them comes to the same in a renamed tree, up to the names: the node found, the tree made and
the reason of a refusal are the renamed ones.

* `Tree.rename`, `SyntaxError.rename`: trees and refusals renamed.
* `Tree.get?_rename`, `Tree.modify_rename`: what the nodes of a renamed tree are.
* `Tree.adopt_rename`, `Tree.addChild_rename`, …: the operations.
* `Form.build_rename`: building nodes.
-/

namespace SemanticCore

/-! ## Nodes -/

def Payload.rename (ρ : Renaming) : Payload → Payload
  | .name n => .name (ρ.name n)
  | .text n => .text (ρ.name n)
  | .importPath path localName => .importPath (ρ.name path) (localName.map ρ.name)
  | .importItem n localName => .importItem (ρ.name n) (localName.map ρ.name)
  | p => p

def Metadata.rename (ρ : Renaming) : Metadata → Metadata
  | .name n => .name (ρ.name n)
  | .node id => .node (id.map ρ.node)
  | .type t => .type (t.map (Ty.rename ρ))
  | m => m

def Node.rename (ρ : Renaming) (n : Node) : Node :=
  { n with
    id := ρ.node n.id
    payload := n.payload.rename ρ
    parent := n.parent.map ρ.node
    children := n.children.map ρ.node
    attributes := n.attributes.map ρ.node
    type := n.type.map (Ty.rename ρ)
    metadata := n.metadata.map fun entry => (entry.1, entry.2.rename ρ) }

def SyntaxError.rename (ρ : Renaming) : SyntaxError → SyntaxError
  | .unknownNode id => .unknownNode (ρ.node id)
  | .cycle child parent => .cycle (ρ.node child) (ρ.node parent)
  | .tooDeep id => .tooDeep (ρ.node id)
  | e => e

def Slot.rename (ρ : Renaming) : Slot → Slot
  | .given child => .given (child.map ρ.node)
  | .filled child => .filled (child.map ρ.node)
  | .segment name => .segment (ρ.name name)

def Form.rename (ρ : Renaming) (form : Form) : Form :=
  { form with payload := form.payload.rename ρ, slots := form.slots.map (Slot.rename ρ) }

/-- A pool some generations later, with all objects renamed. -/
def Pool.rename {α β : Type} (ρ : Renaming) (f : α → β) (p : Pool α) : Pool β where
  generation := p.generation + ρ.generations
  items := p.items.map f

def Tree.rename (ρ : Renaming) (t : Tree) : Tree := { pool := t.pool.rename ρ (Node.rename ρ) }

variable {ρ : Renaming}

@[simp]
theorem Metadata.kind_rename (m : Metadata) : (m.rename ρ).kind = m.kind := by
  cases m <;> rfl

@[simp]
theorem Payload.name?_rename (p : Payload) : (p.rename ρ).name? = p.name?.map ρ.name := by
  cases p <;> rfl

namespace Node

@[simp]
theorem name?_rename (n : Node) : (n.rename ρ).name? = n.name?.map ρ.name :=
  n.payload.name?_rename

theorem note?_rename (n : Node) (key : String) :
    (n.rename ρ).note? key = (n.note? key).map (Metadata.rename ρ) := by
  show (n.metadata.map fun entry => (entry.1, entry.2.rename ρ)).lookup key = _
  rw [note?]
  induction n.metadata with
  | nil => rfl
  | cons entry rest ih =>
    rw [List.map_cons, List.lookup_cons, List.lookup_cons, ih]
    cases key == entry.1 <;> rfl

theorem setNote_rename (n : Node) (key : String) (value : Metadata) :
    (n.rename ρ).setNote key (value.rename ρ) = (n.setNote key value).rename ρ := by
  have hAny : ((n.metadata.map fun entry => (entry.1, entry.2.rename ρ)).any (·.1 == key))
      = n.metadata.any (·.1 == key) := List.any_map
  simp only [setNote, rename, hAny, Node.mk.injEq, true_and]
  split
  · rw [List.map_map, List.map_map]
    refine List.map_congr_left fun entry _ => ?_
    simp only [Function.comp_apply]
    split <;> rfl
  · rw [List.map_append, List.map_cons, List.map_nil]

theorem eraseNote_rename (n : Node) (key : String) :
    (n.rename ρ).eraseNote key = (n.eraseNote key).rename ρ := by
  simp only [eraseNote, rename, List.filter_map, Function.comp_def]

end Node

/-! ## Outcomes -/

/-- What comes of something, renamed. -/
def outcome {α β : Type} (ρ : Renaming) (f : α → β) : Except SyntaxError α → Except SyntaxError β
  | .ok a => .ok (f a)
  | .error e => .error (e.rename ρ)

section

variable {α β γ δ : Type} {f : α → β} {g : α → Except SyntaxError γ} {g' : β → Except SyntaxError δ}
  {h : γ → δ}

/-- One step after another, both renamed. -/
theorem outcome_bind {x : Except SyntaxError α} {y : Except SyntaxError β} (hx : y = outcome ρ f x)
    (hg : ∀ a, g' (f a) = outcome ρ h (g a)) : (y >>= g') = outcome ρ h (x >>= g) := by
  subst hx
  cases x with
  | error e => rfl
  | ok a => exact hg a

theorem outcome_mapM {t : α → Except SyntaxError γ} {t' : β → Except SyntaxError δ}
    (ht : ∀ a, t' (f a) = outcome ρ h (t a)) (l : List α) :
    (l.map f).mapM t' = outcome ρ (List.map h) (l.mapM t) := by
  induction l with
  | nil => rfl
  | cons a l ih =>
    rw [List.map_cons, List.mapM_cons, List.mapM_cons]
    exact outcome_bind (ht a) fun c => outcome_bind ih fun cs => rfl

end

/-- A tree and what else an edit gives. -/
abbrev Renaming.edited {α β : Type} (ρ : Renaming) (f : α → β) (x : α × Tree) : β × Tree :=
  (f x.1, x.2.rename ρ)

theorem entry?_map {α β : Type} (f : α → β) (xs : List α) (i : Number) :
    Number.entry? (xs.map f) i = (Number.entry? xs i).map f := by
  unfold Number.entry?
  split
  · exact List.getElem?_map
  · rfl

theorem replace_map_node (l : List NodeId) (old next : NodeId) :
    (l.map ρ.node).replace (ρ.node old) (ρ.node next) = (l.replace old next).map ρ.node := by
  induction l with
  | nil => rfl
  | cons id ids ih =>
    rw [List.map_cons, List.replace_cons, List.replace_cons, Renaming.node_beq, ih]
    split <;> rfl

/-! ## Objects of a renamed pool -/

namespace Pool

variable {α β : Type} {f : α → β} {p : Pool α}

theorem index?_rename (h : Handle) : (p.rename ρ f).index? (ρ.node h) = p.index? h := by
  unfold index?
  rw [Renaming.toNat?_node]
  cases h.toNat? with
  | none => rfl
  | some n =>
    have hDiv : (ρ.generations * Handle.span + n) / Handle.span
        = n / Handle.span + ρ.generations := by
      rw [Nat.mul_comm, Nat.mul_add_div span_pos, Nat.add_comm]
    have hMod : (ρ.generations * Handle.span + n) % Handle.span = n % Handle.span := by
      rw [Nat.mul_comm, Nat.mul_add_mod]
    simp only [Option.map_some, hDiv, hMod, rename, Nat.add_right_cancel_iff]

theorem get?_rename (h : Handle) : (p.rename ρ f).get? (ρ.node h) = (p.get? h).map f := by
  rw [get?, get?, index?_rename]
  cases p.index? h with
  | none => rfl
  | some i => exact Array.getElem?_map

theorem handle_rename (i : Nat) : (p.rename ρ f).handle i = ρ.node (p.handle i) := by
  rw [handle, handle, Renaming.node_ofNat, ← Nat.add_assoc, ← Nat.add_mul,
    Nat.add_comm ρ.generations]
  rfl

@[simp]
theorem size_rename : (p.rename ρ f).size = p.size := Array.size_map

theorem values_rename : (p.rename ρ f).values = p.values.map f := Array.toList_map

theorem nextHandle_rename : (p.rename ρ f).nextHandle = ρ.node p.nextHandle := by
  rw [nextHandle, nextHandle, ← handle_rename (f := f)]
  exact congrArg (p.rename ρ f).handle size_rename

theorem construct?_rename (x : α) :
    (p.rename ρ f).construct? (f x) = (p.construct? x).map (Prod.map ρ.node (rename ρ f)) := by
  have hSize : (p.rename ρ f).items.size = p.items.size := size_rename
  unfold construct?
  rw [hSize, nextHandle_rename]
  split
  · have hPush : (p.items.map f).push (f x) = (p.items.push x).map f := Array.map_push.symm
    simp only [rename, hPush, Option.map_some, Prod.map_apply]
  · rfl

theorem release_rename : (p.rename ρ f).release = p.release.rename ρ f := by
  simp only [release, rename, List.map_toArray, List.map_nil, Pool.mk.injEq, and_true]
  omega

end Pool

namespace Tree

variable {t : Tree}

/-! ## Nodes of a renamed tree -/

theorem get?_rename (h : NodeId) :
    (t.rename ρ).get? (ρ.node h) = (t.get? h).map (Node.rename ρ) := Pool.get?_rename h

theorem node_rename (h : NodeId) :
    (t.rename ρ).node (ρ.node h) = outcome ρ (Node.rename ρ) (t.node h) := by
  rw [node, node, get?_rename]
  cases t.get? h <;> rfl

@[simp]
theorem size_rename : (t.rename ρ).size = t.size := Pool.size_rename

theorem nodes_rename : (t.rename ρ).nodes = t.nodes.map (Node.rename ρ) := Pool.values_rename

theorem modify_rename {f f' : Node → Node} {h : NodeId}
    (hf : ∀ n, f' (n.rename ρ) = (f n).rename ρ) :
    (t.rename ρ).modify (ρ.node h) f' = (t.modify h f).rename ρ := by
  rw [modify, modify, Pool.modify, Pool.modify, rename, Pool.index?_rename]
  cases t.pool.index? h with
  | none => rfl
  | some i =>
    simp only [rename, Pool.rename, Tree.mk.injEq, Pool.mk.injEq, true_and]
    apply Array.ext_getElem?
    intro j
    rw [Array.getElem?_modify, Array.getElem?_map, Array.getElem?_map, Array.getElem?_modify]
    split
    · cases t.pool.items[j]? with
      | none => rfl
      | some n => exact congrArg some (hf n)
    · rfl

theorem update_rename {f f' : Node → Node} {h : NodeId}
    (hf : ∀ n, f' (n.rename ρ) = (f n).rename ρ) :
    (t.rename ρ).update (ρ.node h) f' = outcome ρ (rename ρ) (t.update h f) :=
  outcome_bind (node_rename h) fun _ => congrArg Except.ok (modify_rename hf)

theorem create_rename (location : Location) (kind : NodeKind) (payload : Payload) :
    (t.rename ρ).create location kind (payload.rename ρ) =
      outcome ρ (ρ.edited ρ.node) (t.create location kind payload) := by
  let n : Node := { id := t.pool.nextHandle, kind, payload, location }
  have hNew : (t.rename ρ).pool.construct?
      { id := (t.rename ρ).pool.nextHandle, kind, payload := payload.rename ρ, location } =
      (t.pool.construct? n).map (Prod.map ρ.node (Pool.rename ρ (Node.rename ρ))) := by
    rw [← Pool.construct?_rename, rename, Pool.nextHandle_rename]
    rfl
  rw [create, hNew, create]
  cases t.pool.construct? n <;> rfl

theorem release_rename : (t.rename ρ).release = t.release.rename ρ :=
  congrArg Tree.mk Pool.release_rename

/-! ## Ancestors -/

theorem chain_rename (limit : Nat) (link : Option NodeId) :
    (t.rename ρ).chain limit (link.map ρ.node) =
      outcome ρ (List.map (Node.rename ρ)) (t.chain limit link) := by
  induction limit generalizing link with
  | zero => cases link <;> rfl
  | succ limit ih =>
    cases link with
    | none => rfl
    | some id =>
      exact outcome_bind (node_rename id) fun n => outcome_bind (ih n.parent) fun _ => rfl

theorem ancestors_rename (h : NodeId) :
    (t.rename ρ).ancestors (ρ.node h) = outcome ρ (List.map (Node.rename ρ)) (t.ancestors h) := by
  refine outcome_bind (node_rename h) fun n => ?_
  rw [size_rename]
  exact chain_rename t.size n.parent

theorem depth_rename (h : NodeId) : (t.rename ρ).depth (ρ.node h) = outcome ρ id (t.depth h) :=
  outcome_bind (ancestors_rename h) fun _ => congrArg Except.ok (List.length_map _)

theorem root_rename (h : NodeId) :
    (t.rename ρ).root (ρ.node h) = outcome ρ (Node.rename ρ) (t.root h) := by
  refine outcome_bind (ancestors_rename h) fun ns => ?_
  rw [List.getLast?_map]
  cases ns.getLast? with
  | none => exact node_rename h
  | some n => rfl

/-! ## Children -/

theorem erase_map_node (ids : List NodeId) (id : NodeId) :
    (ids.map ρ.node).erase (ρ.node id) = (ids.erase id).map ρ.node :=
  (List.map_erase ρ.node_injective ids).symm

theorem eraseChild_rename (child : NodeId) (n : Node) :
    { n.rename ρ with children := (n.rename ρ).children.erase (ρ.node child) } =
      { n with children := n.children.erase child }.rename ρ := by
  simp only [Node.rename, erase_map_node]

theorem adopt_rename (parent child : NodeId) :
    (t.rename ρ).adopt (ρ.node parent) (ρ.node child) =
      outcome ρ (rename ρ) (t.adopt parent child) := by
  refine outcome_bind (ancestors_rename parent) fun above => ?_
  have hAbove : ((above.map (Node.rename ρ)).any (·.id == ρ.node child))
      = above.any (·.id == child) := by
    rw [List.any_map]
    exact congrArg above.any (funext fun n => ρ.node_beq n.id child)
  have hCycle : (ρ.node child = ρ.node parent ∨
      (above.map (Node.rename ρ)).any (·.id == ρ.node child) = true) ↔
      (child = parent ∨ above.any (·.id == child) = true) := by
    rw [Renaming.node_inj, hAbove]
  by_cases hUnder : child = parent ∨ above.any (·.id == child) = true
  · rw [if_pos hUnder, if_pos (hCycle.mpr hUnder)]
    rfl
  rw [if_neg hUnder, if_neg fun h => hUnder (hCycle.mp h)]
  refine outcome_bind (node_rename child) fun n => ?_
  have hLast : ∀ t : Tree, Except.ok ((t.rename ρ).modify (ρ.node child)
      fun n => { n with parent := some (ρ.node parent) }) =
        outcome ρ (rename ρ) (.ok (t.modify child fun n => { n with parent := some parent })) :=
    fun _ => congrArg Except.ok (modify_rename fun _ => rfl)
  obtain ⟨_, _, _, _, link, _, _, _, _, _⟩ := n
  cases link with
  | none => exact hLast t
  | some previous => exact outcome_bind (update_rename (eraseChild_rename child)) hLast

theorem addChild_rename (parent : NodeId) (child : Option NodeId) :
    (t.rename ρ).addChild (ρ.node parent) (child.map ρ.node) =
      outcome ρ (rename ρ) (t.addChild parent child) := by
  cases child with
  | none => rfl
  | some child =>
    refine outcome_bind (node_rename parent) fun _ => ?_
    refine outcome_bind (adopt_rename parent child) fun t => congrArg Except.ok (modify_rename ?_)
    intro n
    simp only [Node.rename, List.map_append, List.map_cons, List.map_nil]

theorem insertChild_rename (parent : NodeId) (index : Number) (child : NodeId) :
    (t.rename ρ).insertChild (ρ.node parent) index (ρ.node child) =
      outcome ρ (rename ρ) (t.insertChild parent index child) := by
  refine outcome_bind (node_rename parent) fun _ => ?_
  refine outcome_bind (adopt_rename parent child) fun t => congrArg Except.ok (modify_rename ?_)
  intro n
  simp only [Node.rename, List.length_map, List.map_insertIdx]

theorem mem_map_node {ids : List NodeId} {id : NodeId} : ρ.node id ∈ ids.map ρ.node ↔ id ∈ ids :=
  List.mem_map_of_injective ρ.node_injective

theorem clearParent_rename (id : NodeId) :
    (t.rename ρ).update (ρ.node id) (fun n => { n with parent := none }) =
      outcome ρ (rename ρ) (t.update id fun n => { n with parent := none }) :=
  update_rename fun _ => rfl

theorem removeChild_rename (parent child : NodeId) :
    (t.rename ρ).removeChild (ρ.node parent) (ρ.node child) =
      outcome ρ (ρ.edited id) (t.removeChild parent child) := by
  refine outcome_bind (node_rename parent) fun n => ?_
  have hErase : (t.rename ρ).modify (ρ.node parent)
      (fun n => { n with children := n.children.erase (ρ.node child) }) =
        (t.modify parent fun n => { n with children := n.children.erase child }).rename ρ :=
    modify_rename (eraseChild_rename child)
  show (if ρ.node child ∈ n.children.map ρ.node then _ else _) = _
  simp only [mem_map_node, hErase]
  split
  · exact outcome_bind (clearParent_rename child) fun _ => rfl
  · rfl

theorem replaceChild_rename (parent old next : NodeId) :
    (t.rename ρ).replaceChild (ρ.node parent) (ρ.node old) (ρ.node next) =
      outcome ρ (ρ.edited id) (t.replaceChild parent old next) := by
  refine outcome_bind (node_rename parent) fun n => ?_
  show (if ρ.node old ∉ n.children.map ρ.node then _ else _) = _
  simp only [mem_map_node, Renaming.node_inj]
  split
  · rfl
  split
  · rfl
  refine outcome_bind (adopt_rename parent next) fun t => ?_
  have hReplace : (t.rename ρ).modify (ρ.node parent)
      (fun n => { n with children := n.children.replace (ρ.node old) (ρ.node next) }) =
        (t.modify parent fun n => { n with children := n.children.replace old next }).rename ρ :=
    modify_rename fun n => by simp only [Node.rename, replace_map_node]
  rw [hReplace]
  exact outcome_bind (clearParent_rename old) fun _ => rfl

theorem follow_rename (link : Option NodeId) :
    (t.rename ρ).follow (link.map ρ.node) =
      outcome ρ (Option.map (Node.rename ρ)) (t.follow link) := by
  cases link with
  | none => rfl
  | some id => exact outcome_bind (node_rename id) fun _ => rfl

theorem child_rename (parent : NodeId) (index : Number) :
    (t.rename ρ).child (ρ.node parent) index =
      outcome ρ (Option.map (Node.rename ρ)) (t.child parent index) := by
  refine outcome_bind (node_rename parent) fun n => ?_
  rw [← follow_rename, ← entry?_map]
  rfl

theorem firstChild_rename (parent : NodeId) :
    (t.rename ρ).firstChild (ρ.node parent) =
      outcome ρ (Option.map (Node.rename ρ)) (t.firstChild parent) := by
  refine outcome_bind (node_rename parent) fun n => ?_
  rw [← follow_rename, ← List.head?_map]
  rfl

theorem lastChild_rename (parent : NodeId) :
    (t.rename ρ).lastChild (ρ.node parent) =
      outcome ρ (Option.map (Node.rename ρ)) (t.lastChild parent) := by
  refine outcome_bind (node_rename parent) fun n => ?_
  rw [← follow_rename, ← List.getLast?_map]
  rfl

theorem childNodes_rename (parent : NodeId) :
    (t.rename ρ).childNodes (ρ.node parent) =
      outcome ρ (List.map (Node.rename ρ)) (t.childNodes parent) :=
  outcome_bind (node_rename parent) fun n => outcome_mapM node_rename n.children

/-! ## Attributes -/

theorem addAttribute_rename (owner : NodeId) (added : Option NodeId) :
    (t.rename ρ).addAttribute (ρ.node owner) (added.map ρ.node) =
      outcome ρ (rename ρ) (t.addAttribute owner added) := by
  cases added with
  | none => rfl
  | some added =>
    refine outcome_bind (node_rename owner) fun _ => ?_
    refine outcome_bind (update_rename fun _ => rfl) fun t => ?_
    refine congrArg Except.ok (modify_rename ?_)
    intro n
    simp only [Node.rename, List.map_append, List.map_cons, List.map_nil]

theorem removeAttribute_rename (owner removed : NodeId) :
    (t.rename ρ).removeAttribute (ρ.node owner) (ρ.node removed) =
      outcome ρ (ρ.edited id) (t.removeAttribute owner removed) := by
  have hErase : (t.rename ρ).modify (ρ.node owner)
      (fun n => { n with attributes := n.attributes.erase (ρ.node removed) }) =
        (t.modify owner fun n => { n with attributes := n.attributes.erase removed }).rename ρ :=
    modify_rename fun n => by simp only [Node.rename, erase_map_node]
  refine outcome_bind (node_rename owner) fun n => ?_
  show (if ρ.node removed ∈ n.attributes.map ρ.node then _ else _) = _
  simp only [mem_map_node, hErase]
  split
  · exact outcome_bind (clearParent_rename removed) fun _ => rfl
  · rfl

theorem attributeAt_rename (owner : NodeId) (index : Number) :
    (t.rename ρ).attributeAt (ρ.node owner) index =
      outcome ρ (Option.map (Node.rename ρ)) (t.attributeAt owner index) := by
  refine outcome_bind (node_rename owner) fun n => ?_
  rw [← follow_rename, ← entry?_map]
  rfl

theorem firstNamed_rename (name : Name) (ids : List NodeId) :
    (t.rename ρ).firstNamed (ρ.name name) (ids.map ρ.node) =
      outcome ρ (Option.map (Node.rename ρ)) (t.firstNamed name ids) := by
  induction ids with
  | nil => rfl
  | cons id ids ih =>
    refine outcome_bind (node_rename id) fun n => ?_
    have hName : (n.rename ρ).name? = some (ρ.name name) ↔ n.name? = some name := by
      rw [Node.name?_rename, Option.map_eq_some_iff]
      simp
    simp only [hName, ih]
    split <;> rfl

theorem findAttribute_rename (owner : NodeId) (name : Name) :
    (t.rename ρ).findAttribute (ρ.node owner) (ρ.name name) =
      outcome ρ (Option.map (Node.rename ρ)) (t.findAttribute owner name) :=
  outcome_bind (node_rename owner) fun n => firstNamed_rename name n.attributes

/-! ## Flags, types and notes -/

/-- What is read off a node. -/
theorem read_rename {α β : Type} {f : α → β} {read : Node → α} {read' : Node → β}
    {h : NodeId} (hRead : ∀ n, read' (n.rename ρ) = f (read n)) :
    (do return read' (← (t.rename ρ).node (ρ.node h))) =
      outcome ρ f (do return read (← t.node h)) :=
  outcome_bind (node_rename h) fun n => congrArg Except.ok (hRead n)

theorem updateFlags_rename (h : NodeId) (f : Flags → Flags) :
    (t.rename ρ).updateFlags (ρ.node h) f = outcome ρ (rename ρ) (t.updateFlags h f) :=
  update_rename fun _ => rfl

theorem setType_rename (h : NodeId) (type : Option Ty) :
    (t.rename ρ).setType (ρ.node h) (type.map (Ty.rename ρ)) =
      outcome ρ (rename ρ) (t.setType h type) :=
  update_rename fun _ => rfl

theorem setMetadata_rename (h : NodeId) (key : String) (value : Metadata) :
    (t.rename ρ).setMetadata (ρ.node h) key (value.rename ρ) =
      outcome ρ (rename ρ) (t.setMetadata h key value) :=
  update_rename fun n => n.setNote_rename key value

theorem getMetadata_rename (h : NodeId) (key : String) :
    (t.rename ρ).getMetadata (ρ.node h) key =
      outcome ρ (Option.map (Metadata.rename ρ)) (t.getMetadata h key) :=
  read_rename fun n => n.note?_rename key

theorem getMetadataAs_rename (h : NodeId) (key : String) (kind : MetadataKind) :
    (t.rename ρ).getMetadataAs (ρ.node h) key kind =
      outcome ρ (Option.map (Metadata.rename ρ)) (t.getMetadataAs h key kind) := by
  refine read_rename fun n => ?_
  rw [Node.note?_rename, Option.filter_map]
  congr 2
  exact funext fun m => congrArg (· == kind) m.kind_rename

theorem hasMetadata_rename (h : NodeId) (key : String) :
    (t.rename ρ).hasMetadata (ρ.node h) key = outcome ρ id (t.hasMetadata h key) :=
  read_rename fun n => by rw [Node.note?_rename, Option.isSome_map, id]

theorem removeMetadata_rename (h : NodeId) (key : String) :
    (t.rename ρ).removeMetadata (ρ.node h) key =
      outcome ρ (ρ.edited id) (t.removeMetadata h key) := by
  refine outcome_bind (node_rename h) fun n => ?_
  rw [Node.note?_rename, Option.isSome_map, modify_rename fun n => n.eraseNote_rename key]
  rfl

end Tree

/-! ## Building -/

namespace Build

variable {α β γ δ : Type}

/-- Two ways of building that come to the same, up to names. -/
def Renamed (ρ : Renaming) (f : α → β) (x : Build α) (y : Build β) : Prop :=
  ∀ t : Tree, y.run.run (t.rename ρ) = (outcome ρ f (x.run.run t).1, (x.run.run t).2.rename ρ)

theorem renamed_pure {f : α → β} {a : α} {b : β} (h : b = f a) :
    Renamed ρ f (pure a) (pure b) := fun _ => h ▸ rfl

theorem Renamed.bind {f : α → β} {h : γ → δ} {x : Build α} {y : Build β} {g : α → Build γ}
    {g' : β → Build δ} (hx : Renamed ρ f x y) (hg : ∀ a, Renamed ρ h (g a) (g' (f a))) :
    Renamed ρ h (x >>= g) (y >>= g') := by
  intro t
  simp only [ExceptT.run_bind, StateT.run_bind, hx t]
  cases x.run.run t with
  | mk result t₁ =>
    cases result with
    | error e => rfl
    | ok a => exact hg a t₁

theorem renamed_edit {f : α → β} {e : Tree → Except SyntaxError (α × Tree)}
    {e' : Tree → Except SyntaxError (β × Tree)}
    (h : ∀ t : Tree, e' (t.rename ρ) = outcome ρ (ρ.edited f) (e t)) :
    Renamed ρ f (edit e) (edit e') := by
  intro t
  show edit e' (t.rename ρ) = (outcome ρ f (edit e t).1, (edit e t).2.rename ρ)
  unfold edit
  rw [h t]
  cases e t <;> rfl

end Build

open Build

theorem Slot.fill_rename (location : Location) (s : Slot) :
    Renamed ρ (Option.map ρ.node) (s.fill location) ((s.rename ρ).fill location) := by
  have hCreate : ∀ kind payload, Renamed ρ (Option.map ρ.node)
      (some <$> Build.create location kind payload)
      (some <$> Build.create location kind (payload.rename ρ)) := by
    intro kind payload
    exact (renamed_edit fun t => t.create_rename location kind payload).bind
      fun _ => renamed_pure rfl
  cases s with
  | given child => exact renamed_pure rfl
  | filled child =>
    cases child with
    | none => exact hCreate .noop .plain
    | some child => exact renamed_pure rfl
  | segment name => exact hCreate .pathSegment (.name name)

namespace Form

theorem fillSlots_rename (location : Location) (slots : List Slot) :
    Renamed ρ (List.map (Option.map ρ.node)) (fillSlots location slots)
      (fillSlots location (slots.map (Slot.rename ρ))) := by
  induction slots with
  | nil => exact renamed_pure rfl
  | cons s rest ih =>
    exact (s.fill_rename location).bind fun child => ih.bind fun children => renamed_pure rfl

theorem attach_rename (parent : NodeId) (children : List (Option NodeId)) :
    Renamed ρ id (attach parent children)
      (attach (ρ.node parent) (children.map (Option.map ρ.node))) := by
  induction children with
  | nil => exact renamed_pure rfl
  | cons child rest ih =>
    refine Renamed.bind (f := id) (renamed_edit fun t => ?_) fun _ => ih
    exact outcome_bind (t.addChild_rename parent child) fun _ => rfl

/-- The node of a form has the renamed handle in the renamed tree. -/
theorem build_rename (form : Form) (location : Location) :
    Renamed ρ ρ.node (form.build location) ((form.rename ρ).build location) := by
  have hCreate : Renamed ρ ρ.node (Build.create location form.kind form.payload)
      (Build.create location form.kind (form.payload.rename ρ)) :=
    renamed_edit fun t => t.create_rename location form.kind form.payload
  have hFlags : ∀ h : NodeId, Renamed ρ id
      (edit fun t => return ((), t.modify h fun n => { n with flags := form.flags }))
      (edit fun t => return ((), t.modify (ρ.node h) fun n => { n with flags := form.flags })) := by
    intro h
    refine renamed_edit fun t => congrArg Except.ok ?_
    exact congrArg (Prod.mk ()) (Tree.modify_rename fun _ => rfl)
  unfold build
  show Renamed ρ ρ.node _ (if form.nodeFirst then _ else _)
  split
  · refine hCreate.bind fun h => ?_
    refine (fillSlots_rename location form.slots).bind fun children => ?_
    exact (attach_rename h children).bind fun _ => renamed_pure rfl
  · refine (fillSlots_rename location form.slots).bind fun children => ?_
    refine hCreate.bind fun h => ?_
    refine (attach_rename h children).bind fun _ => ?_
    exact (hFlags h).bind fun _ => renamed_pure rfl

end Form

end SemanticCore
