import SemanticCore.Proofs.Syntax.AttributeEdit
import SemanticCore.Proofs.Syntax.VisitOrder

/-!
# Attributes apart from children

A node has one parent link for two roles: it is a child of its parent or an attribute of it. Edits
look at the list of one role only. So a node that goes from one role to the other, or from one owner
of attributes to another, goes into a second list without leaving the first. Attributes stay apart
from children exactly in those runs in which no edit does that.

* `Tree.Owned`: children and attributes together are a forest; everything that hangs on a node hangs
  on it once.
* `Tree.Isolated`: what this comes to for the attributes.
* `TreeEdit.Separate`: an edit takes no node from one role to the other.
* `TreeEdit.owned_step`, `TreeEdit.separate_of_isolated`: separate edits keep a tree owned, and no
  others leave attributes isolated.
* `TreeEdit.isolated_iff_separate`: so attributes are isolated throughout a run exactly if all of
  its edits are separate.
* `TreeEdit.childSharedAsAttribute_visited`: an edit that is not.
-/

namespace SemanticCore

/-- Fewer entries in the lists of children leave a forest, though not a strict one. -/
theorem LinkForest.of_sublist {α : Type} {strict : Prop} {parent : ParentMap α}
    {children children' : α → List α} (h : LinkForest strict parent children)
    (hSub : ∀ p, (children' p).Sublist (children p)) : LinkForest False parent children' where
  parent_of_mem hMem := h.parent_of_mem ((hSub _).subset hMem)
  mem_of_parent := False.elim
  nodup_children p := (hSub p).nodup (h.nodup_children p)
  grounded := h.grounded

theorem erase_append_of_not_mem {α : Type} [DecidableEq α] {l l' : List α} {a : α} (h : a ∉ l') :
    (l ++ l').erase a = l.erase a ++ l' := by
  by_cases hMem : a ∈ l
  · exact List.erase_append_left l' hMem
  · rw [List.erase_append_right l' hMem, List.erase_of_not_mem h, List.erase_of_not_mem hMem]

namespace Tree

variable {t t' : Tree} {c p q owner id : NodeId} {n : Node} {link : Option NodeId}

/-! ## The lists of attributes -/

/-- What hangs on a node: its children, then its attributes. -/
def membersOf (t : Tree) (id : NodeId) : List NodeId := t.childrenOf id ++ t.attributesOf id

theorem attributesOf_of_get? (h : t.get? id = some n) : t.attributesOf id = n.attributes :=
  listOf_of_get? h

@[simp]
theorem attributesOf_moveTo : (t.moveTo p c).attributesOf = t.attributesOf := by
  rw [moveTo, attributesOf_setParent, leaveParent]
  split
  · rfl
  · exact attributesOf_setChildren

theorem attributesOf_create {location : Location} {kind : NodeKind} {payload : Payload}
    (hNew : t.create location kind payload = .ok (id, t')) : t'.attributesOf = t.attributesOf := by
  obtain ⟨-, hNone, -, hGet⟩ := create_eq_ok hNew
  funext k
  rw [attributesOf, attributesOf, listOf, listOf, hGet]
  split
  · rename_i hEq
    rw [hEq, hNone]
    rfl
  · rfl

/-- No edit of children changes a list of attributes. -/
theorem Edited.attributesOf_eq (h : t.Edited t') : t'.attributesOf = t.attributesOf := by
  cases h <;> simp

theorem mem_attributesOf_iff (h : t.Numbered) :
    c ∈ t.attributesOf p ↔ ∃ n ∈ t.nodes, n.id = p ∧ c ∈ n.attributes := by
  constructor
  · intro hMem
    obtain ⟨n, hGet, hMem⟩ := exists_of_mem_listOf hMem
    obtain ⟨i, -, -, hItem⟩ := Pool.get?_eq_some_iff.mp hGet
    exact ⟨n, Array.mem_toList_iff.mpr (Array.mem_of_getElem? hItem), h.id_of_get? hGet, hMem⟩
  · rintro ⟨n, hn, rfl, hMem⟩
    rwa [attributesOf_of_get? (h.get?_id hn)]

/-! ## What hangs on a node -/

/-- Children and attributes together form a forest: a node with a parent is a child of it or an
attribute of it, not both, and stands in no other list. -/
structure Owned (t : Tree) : Prop where
  numbered : t.Numbered
  resolve : t.LinksResolve
  forest : LinkForest True t.parent? t.membersOf

namespace Owned

theorem of_wellLinked (h : t.WellLinked) (hNone : ∀ p, t.attributesOf p = []) : t.Owned where
  numbered := h.numbered
  resolve := h.resolve
  forest := by
    have hMembers : t.membersOf = t.childrenOf := by
      funext p
      rw [membersOf, hNone, List.append_nil]
    rw [hMembers]
    exact h.forest

theorem tidy (h : t.Owned) : t.Tidy :=
  ⟨h.numbered, h.resolve, h.forest.of_sublist fun _ => List.sublist_append_left _ _⟩

theorem parent_of_attribute (h : t.Owned) (hc : c ∈ t.attributesOf p) : t.parent? c = some p :=
  h.forest.parent_of_mem (List.mem_append_right _ hc)

theorem nodup_attributes (h : t.Owned) (p : NodeId) : (t.attributesOf p).Nodup :=
  (List.nodup_append'.mp (h.forest.nodup_children p)).2.1

theorem not_mem_children (h : t.Owned) (hc : c ∈ t.attributesOf p) (q : NodeId) :
    c ∉ t.childrenOf q := by
  intro hMem
  have hSame := (h.parent_of_attribute hc).symm.trans (h.tidy.forest.parent_of_mem hMem)
  obtain rfl := Option.some.inj hSame
  exact (List.nodup_append'.mp (h.forest.nodup_children p)).2.2 hMem hc

theorem create {location : Location} {kind : NodeKind} {payload : Payload} (h : t.Owned)
    (hNew : t.create location kind payload = .ok (id, t')) : t'.Owned where
  numbered := (h.tidy.create hNew).numbered
  resolve := (h.tidy.create hNew).resolve
  forest := by
    have hMembers : t'.membersOf = t.membersOf := by
      funext p
      rw [membersOf, (links_create hNew).2, attributesOf_create hNew, membersOf]
    rw [(links_create hNew).1, hMembers]
    exact h.forest

theorem modify (h : t.Owned) {f : Node → Node} (hId : ∀ n, (f n).id = n.id)
    (hParent : ∀ n, (f n).parent = n.parent) (hChildren : ∀ n, (f n).children = n.children)
    (hAttributes : ∀ n, (f n).attributes = n.attributes) : (t.modify id f).Owned where
  numbered := (h.tidy.modify hId hParent hChildren).numbered
  resolve := (h.tidy.modify hId hParent hChildren).resolve
  forest := by
    have hMembers : (t.modify id f).membersOf = t.membersOf := by
      funext p
      rw [membersOf, childrenOf_modify hChildren, attributesOf_modify hAttributes, membersOf]
    rw [parent?_modify hParent, hMembers]
    exact h.forest

/-! ## Edits of children -/

/-- A node that is no attribute moves among the children; the attributes stay behind them. -/
theorem move_perm {parent : ParentMap NodeId} {l l' : NodeId → List NodeId}
    (hc : ∀ x, c ∉ t.attributesOf x)
    (hForest : LinkForest True parent fun x => l x ++ t.attributesOf x) (hNe : c ≠ p)
    (hAbove : ¬ parent.Ancestor c p)
    (hPerm : ∀ x, (l' x).Perm (if x = p then c :: (l x).erase c else (l x).erase c)) :
    LinkForest True (Function.update parent c (some p)) fun x => l' x ++ t.attributesOf x := by
  refine hForest.move hNe hAbove fun x => ?_
  rw [erase_append_of_not_mem (hc x)]
  have hMembers := (hPerm x).append_right (t.attributesOf x)
  by_cases hx : x = p
  · simpa only [if_pos hx, List.cons_append] using hMembers
  · simpa only [if_neg hx] using hMembers

theorem detach_attributes (h : t.Owned) (hc : ∀ x, c ∉ t.attributesOf x) :
    LinkForest True (Function.update t.parent? c none)
      fun x => (t.childrenOf x).erase c ++ t.attributesOf x := by
  have hDetached := h.forest.detach c
  simp only [membersOf, erase_append_of_not_mem (hc _)] at hDetached
  exact hDetached

/-- An edit of children keeps a tree owned unless it makes a child of an attribute. -/
theorem edited (h : t.Owned) (hEdit : t.Edited t')
    (hApart : ∀ c p, c ∈ t.attributesOf p → ∀ q, c ∉ t'.childrenOf q) : t'.Owned where
  numbered := (h.tidy.edited hEdit).numbered
  resolve := (h.tidy.edited hEdit).resolve
  forest := by
    have hSpare : ∀ {c q}, c ∈ t'.childrenOf q → ∀ x, c ∉ t.attributesOf x :=
      fun hMem x hx => hApart _ x hx _ hMem
    have hChild : ∀ {c q}, c ∈ t.childrenOf q → ∀ x, c ∉ t.attributesOf x :=
      fun hMem x hx => h.not_mem_children hx _ hMem
    have hMembers : t'.membersOf = fun x => t'.childrenOf x ++ t.attributesOf x := by
      funext x
      rw [membersOf, hEdit.attributesOf_eq]
    rw [hMembers]
    cases hEdit with
    | same => exact h.forest
    | @place p c f hCan hPerm =>
      have hPerm' := h.tidy.place_perm hCan (hPerm _)
      have hc := hSpare ((hPerm' p).mem_iff.mpr (by rw [if_pos rfl]; exact List.mem_cons_self))
      rw [hCan.parent?_place]
      exact move_perm hc h.forest hCan.ne hCan.not_above hPerm'
    | @replace p old next hCan hOld hOther =>
      have hPerm := h.tidy.replace_perm hCan hOld hOther
      have hNext := hSpare ((hPerm p).mem_iff.mpr (by rw [if_pos rfl]; exact List.mem_cons_self))
      rw [parent?_replace hCan (h.resolve.isSome_of_mem hOld) hOther]
      exact move_perm hNext (h.detach_attributes (hChild hOld)) hCan.ne
        hCan.not_above_of_detached hPerm
    | @remove p c hc =>
      rw [(h.tidy.links_remove hc).1, (h.tidy.links_remove hc).2]
      exact h.detach_attributes (hChild hc)

/-! ## Edits of attributes -/

/-- A node without a parent becomes an attribute of one that is not below it. -/
theorem addAttribute (h : t.Owned) (hOwner : (t.get? owner).isSome) (hc : (t.get? c).isSome)
    (hRoot : t.parent? c = none)
    (hAcyclic : ((t.setParent c (some owner)).setAttributes owner (· ++ [c])).Acyclic) :
    ((t.setParent c (some owner)).setAttributes owner (· ++ [c])).Owned := by
  have hLinks := relinked_addAttribute hOwner hc
  simp only [Acyclic, Ancestor, hLinks.parent?_eq] at hAcyclic
  have hDown : ParentMap.Ancestor (Function.update t.parent? c (some owner)) owner c :=
    ParentMap.ancestor_of_edge (Function.update_self c (some owner) t.parent?)
  have hNe : c ≠ owner := by
    rintro rfl
    exact hAcyclic c hDown
  refine ⟨hLinks.numbered h.numbered, hLinks.resolve h.resolve, ?_⟩
  rw [hLinks.parent?_eq]
  refine h.forest.attach hRoot hNe (fun hUp => hAcyclic owner (hDown.trans (hUp.update hNe.symm)))
    fun x => ?_
  rw [membersOf, membersOf, hLinks.childrenOf_eq,
    attributesOf_setAttributes (isSome_get?_setParent.trans hOwner), attributesOf_setParent,
    Function.update_apply]
  split
  · rename_i hEq
    rw [hEq, ← List.append_assoc]
    exact List.perm_append_singleton _ _
  · exact List.Perm.refl _

theorem removeAttribute (h : t.Owned) (hc : c ∈ t.attributesOf owner) :
    ((t.setAttributes owner (·.erase c)).setParent c none).Owned := by
  obtain ⟨n, hGet, -⟩ := exists_of_mem_listOf hc
  have hOwner := Option.isSome_of_eq_some hGet
  have hSome : (t.get? c).isSome := by
    obtain ⟨m, hm, -⟩ := Option.bind_eq_some_iff.mp (h.parent_of_attribute hc)
    exact Option.isSome_of_eq_some hm
  have hLinks : t.Relinked c none ((t.setAttributes owner (·.erase c)).setParent c none) :=
    relinked_removeAttribute hSome
  refine ⟨hLinks.numbered h.numbered, hLinks.resolve h.resolve, ?_⟩
  have hMembers : ((t.setAttributes owner (·.erase c)).setParent c none).membersOf =
      fun x => (t.membersOf x).erase c := by
    funext x
    have hNot := h.not_mem_children hc x
    rw [membersOf, membersOf, hLinks.childrenOf_eq, attributesOf_setParent,
      attributesOf_setAttributes hOwner, Function.update_apply, List.erase_append_right _ hNot]
    split
    · rename_i hEq
      rw [hEq]
    · rename_i hNe
      rw [List.erase_of_not_mem fun hMem => hNe ?_]
      exact Option.some.inj ((h.parent_of_attribute hMem).symm.trans (h.parent_of_attribute hc))
  rw [hLinks.parent?_eq, hMembers]
  exact h.forest.detach c

end Owned

/-! ## Building -/

/-- No node of some lists of attributes is a child. -/
def Spares (t : Tree) (attributes : NodeId → List NodeId) : Prop :=
  ∀ c p, c ∈ attributes p → ∀ q, c ∉ t.childrenOf q

/-- A node that is a child before another goes to the end of the children of a node is one after. -/
theorem Linked.exists_mem_of_addChild {strict : Prop} {x : NodeId} (h : t.Linked strict)
    (hCan : t.CanAdopt p c) (hx : x ∈ t.childrenOf q) :
    ∃ q', x ∈ ((t.moveTo p c).setChildren p (· ++ [c])).childrenOf q' := by
  have hPerm := h.place_perm (f := (· ++ [c])) hCan (List.perm_append_singleton _ _)
  by_cases hxc : x = c
  · exact ⟨p, (hPerm p).mem_iff.mpr (by rw [if_pos rfl, hxc]; exact List.mem_cons_self)⟩
  · have hMem : x ∈ (t.childrenOf q).erase c := (List.mem_erase_of_ne hxc).mpr hx
    refine ⟨q, (hPerm q).mem_iff.mpr ?_⟩
    split
    · exact List.mem_cons_of_mem _ hMem
    · exact hMem

/-- While nodes are built, children are not taken away again. So if no attribute is a child in the
end, none was meanwhile. -/
theorem owned_form (attributes : NodeId → List NodeId) :
    FormInvariant fun t =>
      t.Tidy ∧ t.attributesOf = attributes ∧ (t.Spares attributes → t.Owned) where
  create hNew h := by
    refine ⟨h.1.create hNew, (attributesOf_create hNew).trans h.2.1, fun hSpares => ?_⟩
    rw [Spares, (links_create hNew).2] at hSpares
    exact (h.2.2 hSpares).create hNew
  addChild := by
    intro t t' parent child hAdd h
    have hEdit := addChild_edited h.1.rooted hAdd
    refine ⟨h.1.edited hEdit, hEdit.attributesOf_eq.trans h.2.1, fun hSpares => ?_⟩
    have hBefore : t.Spares attributes := by
      intro x p hx q hMem
      cases child with
      | none =>
        cases hAdd
        exact hSpares x p hx q hMem
      | some c =>
        obtain ⟨hCan, rfl⟩ := (addChild_eq_ok_iff h.1.rooted).mp hAdd
        obtain ⟨q', hMem⟩ := h.1.exists_mem_of_addChild hCan hMem
        exact hSpares x p hx q' hMem
    refine (h.2.2 hBefore).edited hEdit ?_
    rwa [h.2.1]
  setFlags := by
    intro t id flags h
    have hChildren : (t.modify id fun n => { n with flags }).childrenOf = t.childrenOf :=
      childrenOf_modify fun _ => rfl
    have hAttributes : (t.modify id fun n => { n with flags }).attributesOf = t.attributesOf :=
      attributesOf_modify fun _ => rfl
    refine ⟨h.1.modify (fun _ => rfl) (fun _ => rfl) fun _ => rfl, hAttributes.trans h.2.1, ?_⟩
    intro hSpares
    have hBefore : t.Spares attributes := by
      rwa [Spares, hChildren] at hSpares
    exact (h.2.2 hBefore).modify (fun _ => rfl) (fun _ => rfl) (fun _ => rfl) fun _ => rfl

/-! ## Isolated attributes -/

/-- Attributes are kept apart from children, and from each other. -/
structure Isolated (t : Tree) : Prop where
  /-- Over all lists of attributes together, a handle occurs at most once. -/
  nodup_attributes : (t.nodes.flatMap (·.attributes)).Nodup
  /-- No attribute is a child. -/
  not_mem_children : ∀ m ∈ t.nodes, ∀ c ∈ m.attributes, ∀ n ∈ t.nodes, c ∉ n.children
  /-- The parent of an attribute is the node that has it. -/
  parent_eq : ∀ n ∈ t.nodes, ∀ c ∈ n.attributes, t.parent? c = some n.id
  /-- Whatever a visit descends into, it comes to no attribute but its root. -/
  not_visited : ∀ descend root es, t.visit root (VisitEvent.tracer descend) [] = .ok es →
    ∀ n ∈ t.nodes, ∀ c ∈ n.attributes, ∀ e ∈ es, e.node.id = c → c = root

/-- A visit comes to its root and to children only. -/
theorem Linked.mem_childrenOf_of_visit {strict : Prop} (h : t.Linked strict)
    {descend : Node → Bool} {root : NodeId} {es : List VisitEvent} {e : VisitEvent}
    (hVisit : t.visit root (VisitEvent.tracer descend) [] = .ok es) (he : e ∈ es) :
    e.node.id = root ∨ ∃ p, e.node.id ∈ t.childrenOf p := by
  rw [h.visit_eq (VisitEvent.follows_tracer descend)] at hVisit
  obtain ⟨n, -, hEvents⟩ := bind_eq_ok.mp hVisit
  rw [VisitEvent.run_replay_tracer] at hEvents
  cases hEvents
  obtain ⟨-, hReaches⟩ := (h.mem_events root).mp he
  rcases hReaches.cases_tail with hRoot | ⟨p, -, hStep⟩
  · exact .inl hRoot
  · exact .inr ⟨p, hStep.1⟩

theorem Owned.isolated (h : t.Owned) : t.Isolated := by
  have hOwner : ∀ n ∈ t.nodes, ∀ c ∈ n.attributes, c ∈ t.attributesOf n.id := fun n hn c hc =>
    (mem_attributesOf_iff h.numbered).mpr ⟨n, hn, rfl, hc⟩
  have hParent : ∀ n ∈ t.nodes, ∀ c ∈ n.attributes, t.parent? c = some n.id := fun n hn c hc =>
    h.parent_of_attribute (hOwner n hn c hc)
  refine ⟨h.numbered.nodup_flatMap hParent fun n hn => ?_, fun m hm c hc n hn => ?_, hParent, ?_⟩
  · rw [← attributesOf_of_get? (h.numbered.get?_id hn)]
    exact h.nodup_attributes _
  · rw [← childrenOf_of_get? (h.numbered.get?_id hn)]
    exact h.not_mem_children (hOwner m hm c hc) _
  · rintro descend root es hVisit n hn c hc e he rfl
    refine (h.tidy.mem_childrenOf_of_visit hVisit he).resolve_right ?_
    rintro ⟨p, hp⟩
    exact h.not_mem_children (hOwner n hn _ hc) p hp

end Tree

/-! ## Single edits -/

namespace ChildEdit

variable {t : Tree}

/-- An edit of children changes no attributes, and keeps a tree owned if no attribute is a child
after it. -/
theorem owned_step (h : t.Owned) (e : ChildEdit) :
    (e.step.after t).attributesOf = t.attributesOf ∧
      ((e.step.after t).Spares t.attributesOf → (e.step.after t).Owned) := by
  rcases edited_step h.tidy.rooted e with ⟨form, location, rfl⟩ | hEdit
  · exact (Build.keeps_discard ((Tree.owned_form t.attributesOf).keeps_build form location) t
      ⟨h.tidy, rfl, fun _ => h⟩).2
  · exact ⟨hEdit.attributesOf_eq, h.edited hEdit⟩

end ChildEdit

namespace TreeEdit

variable {e : TreeEdit} {t : Tree} {c p owner : NodeId} {edits : List TreeEdit}

/-- An edit takes no node from one role to the other: it makes a child of no attribute, and an
attribute only of a node that has no parent. -/
structure Separate (e : TreeEdit) (t : Tree) : Prop where
  children : ∀ m ∈ t.nodes, ∀ c ∈ m.attributes, ∀ n ∈ (e.step.after t).nodes, c ∉ n.children
  attributes : ∀ new ∈ e.newAttribute?, (t.get? new.1).isSome → t.parent? new.2 = none

instance (e : TreeEdit) (t : Tree) : Decidable (e.Separate t) :=
  decidable_of_iff
    ((∀ m ∈ t.nodes, ∀ c ∈ m.attributes, ∀ n ∈ (e.step.after t).nodes, c ∉ n.children) ∧
      ∀ new ∈ e.newAttribute?, (t.get? new.1).isSome → t.parent? new.2 = none)
    ⟨fun h => ⟨h.1, h.2⟩, fun h => ⟨h.1, h.2⟩⟩

theorem AttributeStep.childrenOf_eq {t' : Tree} (h : AttributeStep t e t') :
    t'.childrenOf = t.childrenOf := by
  cases h with
  | same => rfl
  | added hOwner hc => exact (Tree.relinked_addAttribute hOwner hc).childrenOf_eq
  | removed _ hc => exact (Tree.relinked_removeAttribute hc).childrenOf_eq

/-- Separate edits keep a tree owned. -/
theorem owned_step (h : t.Owned) (hSeparate : e.Separate t)
    (hAcyclic : (e.step.after t).Acyclic) : (e.step.after t).Owned := by
  obtain ⟨hChildren, hAttributes⟩ := hSeparate
  rcases child_or_attributeStep e t with ⟨edit, rfl⟩ | hStep
  · refine (edit.owned_step h).2 fun c p hc q hMem => ?_
    obtain ⟨m, hm, -, hc⟩ := (Tree.mem_attributesOf_iff h.numbered).mp hc
    obtain ⟨n, hn, hMem⟩ := Tree.exists_node_of_mem_childrenOf hMem
    exact hChildren m hm c hc n hn hMem
  · generalize e.step.after t = t' at hStep hAcyclic
    cases hStep with
    | same => exact h
    | added hOwner hc => exact h.addAttribute hOwner hc (hAttributes _ rfl hOwner) hAcyclic
    | removed hMem hc => exact h.removeAttribute hMem

/-- A node with a parent that is made an attribute then stands in two lists, or twice in one. -/
theorem not_isolated_addAttribute (h : t.Owned) (hOwner : (t.get? owner).isSome)
    (hc : (t.get? c).isSome) (hp : t.parent? c = some p) :
    ¬ ((t.setParent c (some owner)).setAttributes owner (· ++ [c])).Isolated := by
  intro hIsolated
  have hLinks := Tree.relinked_addAttribute hOwner hc
  have hNumbered := hLinks.numbered h.numbered
  have hAttributes :
      ((t.setParent c (some owner)).setAttributes owner (· ++ [c])).attributesOf =
        Function.update t.attributesOf owner (t.attributesOf owner ++ [c]) := by
    rw [Tree.attributesOf_setAttributes (Tree.isSome_get?_setParent.trans hOwner),
      Tree.attributesOf_setParent]
  obtain ⟨m, hm, hmId, hMade⟩ := (Tree.mem_attributesOf_iff (c := c) (p := owner) hNumbered).mp
    (by rw [hAttributes, Function.update_self]; exact List.mem_append_right _ List.mem_cons_self)
  rcases List.mem_append.mp (h.forest.mem_of_parent trivial hp) with hChild | hAttribute
  · rw [← hLinks.childrenOf_eq] at hChild
    obtain ⟨n, hn, hChild⟩ := Tree.exists_node_of_mem_childrenOf hChild
    exact hIsolated.not_mem_children m hm c hMade n hn hChild
  · have hStill : c ∈ Function.update t.attributesOf owner (t.attributesOf owner ++ [c]) p := by
      rw [Function.update_apply]
      split
      · exact List.mem_append_right _ List.mem_cons_self
      · exact hAttribute
    rw [← hAttributes] at hStill
    obtain ⟨n, hn, hnId, hStill⟩ := (Tree.mem_attributesOf_iff hNumbered).mp hStill
    -- the node that has it is its parent, so it is the new owner, which then has it twice
    have hSame := (hIsolated.parent_eq m hm c hMade).symm.trans (hIsolated.parent_eq n hn c hStill)
    have hNodup := (List.nodup_flatMap.mp hIsolated.nodup_attributes).1 m hm
    rw [← Tree.attributesOf_of_get? (hNumbered.get?_id hm), hmId, hAttributes,
      Function.update_self] at hNodup
    rw [hmId, hnId, Option.some.injEq] at hSame
    exact (List.nodup_append'.mp hNodup).2.2 (hSame ▸ hAttribute) List.mem_cons_self

/-- An edit after which the attributes are isolated is separate. -/
theorem separate_of_isolated (h : t.Owned) (hAcyclic : (e.step.after t).Acyclic)
    (hIsolated : (e.step.after t).Isolated) : e.Separate t := by
  have hNumbered := (rooted_step e h.tidy.rooted hAcyclic).numbered
  refine ⟨fun m hm c hc n hn hMem => ?_, fun new hNew hOwner => ?_⟩
  · have hOld := (Tree.mem_attributesOf_iff h.numbered).mpr ⟨m, hm, rfl, hc⟩
    have hNow : c ∈ (e.step.after t).childrenOf n.id := by
      rwa [Tree.childrenOf_of_get? (hNumbered.get?_id hn)]
    rcases child_or_attributeStep e t with ⟨edit, rfl⟩ | hStep
    · rw [← (edit.owned_step h).1] at hOld
      obtain ⟨m', hm', -, hc'⟩ := (Tree.mem_attributesOf_iff hNumbered).mp hOld
      exact hIsolated.not_mem_children m' hm' c hc' n hn hMem
    · rw [hStep.childrenOf_eq] at hNow
      exact h.not_mem_children hOld _ hNow
  · rcases child_or_attributeStep e t with ⟨edit, rfl⟩ | hStep
    · cases hNew
    · generalize e.step.after t = t' at hStep hIsolated
      cases hStep with
      | same hNone => rw [Tree.parent?, hNone new hNew hOwner, Option.bind_none]
      | added _ hc =>
        cases hNew
        cases hp : t.parent? _ with
        | none => rfl
        | some p => exact absurd hIsolated (not_isolated_addAttribute h hOwner hc hp)
      | removed => cases hNew

/-! ## Runs -/

theorem isolated_run_iff (edits : List TreeEdit) (h : t.Owned) (hAcyclic : StaysAcyclic edits t) :
    (∀ before after, edits = before ++ after → (run before t).Isolated) ↔
      ∀ before e after, edits = before ++ e :: after → e.Separate (run before t) := by
  induction edits generalizing t with
  | nil =>
    refine ⟨fun _ before e after hSplit => absurd hSplit (by simp), fun _ before after hSplit => ?_⟩
    rw [(List.append_eq_nil_iff.mp hSplit.symm).1]
    exact h.isolated
  | cons e rest ih =>
    have hAfter := hAcyclic [e] rest rfl
    have hRest : StaysAcyclic rest (e.step.after t) := fun before after hSplit =>
      hAcyclic (e :: before) after (congrArg (e :: ·) hSplit)
    constructor
    · intro hIsolated
      have hSeparate := separate_of_isolated h hAfter (hIsolated [e] rest rfl)
      have hLater := (ih (owned_step h hSeparate hAfter) hRest).mp fun before after hSplit =>
        hIsolated (e :: before) after (congrArg (e :: ·) hSplit)
      intro before e' after hSplit
      rcases List.cons_eq_append_iff.mp hSplit with ⟨rfl, hHead⟩ | ⟨before, rfl, hTail⟩
      · cases hHead
        exact hSeparate
      · exact hLater before e' after hTail
    · intro hSeparate
      have hLater := (ih (owned_step h (hSeparate [] e rest rfl) hAfter) hRest).mpr
        fun before e' after hSplit => hSeparate (e :: before) e' after (congrArg (e :: ·) hSplit)
      intro before after hSplit
      rcases List.cons_eq_append_iff.mp hSplit with ⟨rfl, -⟩ | ⟨before, rfl, hTail⟩
      · exact h.isolated
      · exact hLater before after hTail

/-- Attributes are isolated throughout a run without a cyclic parent chain exactly if each of its
edits is separate: no attribute is made a child, and what is made an attribute has no parent. -/
theorem isolated_iff_separate (generation : Nat) (edits : List TreeEdit)
    (hAcyclic : StaysAcyclic edits (Tree.empty generation)) :
    (∀ before after, edits = before ++ after → (run before (Tree.empty generation)).Isolated) ↔
      ∀ before e after, edits = before ++ e :: after →
        e.Separate (run before (Tree.empty generation)) := by
  refine isolated_run_iff edits (.of_wellLinked (Tree.wellLinked_empty generation) fun p => ?_)
    hAcyclic
  refine List.eq_nil_iff_forall_not_mem.mpr fun c hc => ?_
  have hNumbered := (Tree.wellLinked_empty generation).numbered
  obtain ⟨n, hn, -⟩ := (Tree.mem_attributesOf_iff hNumbered).mp hc
  exact absurd hn (List.not_mem_nil)

/-- Three blocks are built. The second goes under the first, of which the third is an attribute
until it goes under the second. -/
def attributeMadeChild : List TreeEdit :=
  [.child (.build (.ok (.block [])) default), .child (.build (.ok (.block [])) default),
    .child (.build (.ok (.block [])) default), .child (.addChild 0 (some 1)),
    .addAttribute 0 (some 2), .removeAttribute 0 2, .child (.addChild 1 (some 2))]

theorem isolated_iff_separate_released :
    StaysAcyclic attributeMadeChild (Tree.empty 0) ∧
      ∀ before after, attributeMadeChild = before ++ after →
        (run before (Tree.empty 0)).Isolated := by
  have hAcyclic : StaysAcyclic attributeMadeChild (Tree.empty 0) := by
    refine staysAcyclic_of_rises (fun _ id => 2 - id.toNat?.getD 0) ?_
    decide +kernel
  have hSeparate : ∀ k : Fin attributeMadeChild.length,
      attributeMadeChild[k].Separate (run (attributeMadeChild.take k) (Tree.empty 0)) := by
    decide +kernel
  refine ⟨hAcyclic, (isolated_iff_separate 0 attributeMadeChild hAcyclic).mpr ?_⟩
  intro before e after hSplit
  have hLength : before.length < attributeMadeChild.length := by
    rw [hSplit, List.length_append, List.length_cons]
    omega
  simpa [hSplit] using hSeparate ⟨before.length, hLength⟩

/-! ## A child that is an attribute as well -/

/-- Three blocks are built, and the second is put under the first and made an attribute of the
third. -/
def childSharedAsAttribute : List TreeEdit :=
  [.child (.build (.ok (.block [])) default), .child (.build (.ok (.block [])) default),
    .child (.build (.ok (.block [])) default), .child (.addChild 0 (some 1)),
    .addAttribute 2 (some 1)]

/-- No parent chain was cyclic, but a node is a child and an attribute, and is visited as a
child. -/
theorem childSharedAsAttribute_visited :
    StaysAcyclic childSharedAsAttribute (Tree.empty 0) ∧
      ¬ (run childSharedAsAttribute (Tree.empty 0)).Isolated ∧
      ((run childSharedAsAttribute (Tree.empty 0)).walk 0 fun _ => true).map
        (·.map (·.id)) = .ok [0, 1] := by
  have hAcyclic : StaysAcyclic childSharedAsAttribute (Tree.empty 0) := by
    refine staysAcyclic_of_rises
      (fun k id => if k ≤ 4 then 2 - id.toNat?.getD 0 else id.toNat?.getD 0) ?_
    decide +kernel
  have hShared : ∃ m ∈ (run childSharedAsAttribute (Tree.empty 0)).nodes, ∃ c ∈ m.attributes,
      ∃ n ∈ (run childSharedAsAttribute (Tree.empty 0)).nodes, c ∈ n.children := by
    decide +kernel
  refine ⟨hAcyclic, fun hIsolated => ?_, by decide +kernel⟩
  obtain ⟨m, hm, c, hc, n, hn, hMem⟩ := hShared
  exact hIsolated.not_mem_children m hm c hc n hn hMem

end TreeEdit

end SemanticCore
