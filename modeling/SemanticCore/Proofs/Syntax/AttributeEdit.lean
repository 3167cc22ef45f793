import SemanticCore.Proofs.Syntax.Descent
import SemanticCore.Proofs.Syntax.Forest

/-!
# Runs of edits of children and attributes

An edit of attributes sets the parent of a node and leaves the lists of children as they are. So a
child that becomes an attribute still stands among the children of its old parent, which it does not
know any more, and from then on the search for cycles, which follows the parents, does not see all
that a traversal goes through. A tree is `Tree.Tidy` when every child has the node of the list as
its parent.

* `TreeEdit`: everything that changes the links of a tree.
* `TreeEdit.tidy_run`: a tree stays tidy if attributes are made of nodes that are no children.
* `Tree.Rooted.exists_cycle`: in a tree that is not tidy, edits of children close a cycle.
* `TreeEdit.traversalsEnd_iff_tidy`: so the tidy trees are those in which traversals end and go on
  to end.
* `TreeEdit.childMadeAttribute_cycle`: a child that is made an attribute leads to a cycle.
-/

namespace SemanticCore

namespace Tree

variable {t t' : Tree} {c p owner : NodeId} {link : Option NodeId}

/-- Every node that stands among the children of another stands there once and has it as parent. -/
abbrev Tidy (t : Tree) : Prop := t.Linked False

/-- No node is above itself. -/
def Acyclic (t : Tree) : Prop := ∀ id, ¬ t.Ancestor id id

/-! ## Edits of attributes -/

/-- The parent of a node is changed, all lists of children stay. -/
structure Relinked (t : Tree) (c : NodeId) (link : Option NodeId) (t' : Tree) : Prop where
  parent?_eq : t'.parent? = Function.update t.parent? c link
  childrenOf_eq : t'.childrenOf = t.childrenOf
  numbered : t.Numbered → t'.Numbered
  resolve : t.LinksResolve → t'.LinksResolve

theorem relinked_setParent (hc : (t.get? c).isSome)
    (hLink : ∀ p, link = some p → (t.get? p).isSome) : t.Relinked c link (t.setParent c link) where
  parent?_eq := parent?_setParent hc
  childrenOf_eq := childrenOf_setParent
  numbered ht := ht.setParent
  resolve ht := ht.setParent hLink

namespace Relinked

/-- The attributes of a node are none of its links. -/
theorem setAttributes (h : t.Relinked c link t') (f : Node → List NodeId) :
    t.Relinked c link (t'.modify owner fun n => { n with attributes := f n }) where
  parent?_eq := Eq.trans (parent?_modify fun _ => rfl) h.parent?_eq
  childrenOf_eq := Eq.trans (childrenOf_modify fun _ => rfl) h.childrenOf_eq
  numbered ht := (h.numbered ht).modify fun _ => rfl
  resolve ht := (h.resolve ht).modify (fun _ _ hp => Or.inl hp) fun _ _ hk => Or.inl hk

theorem of_setAttributes {f : Node → List NodeId}
    (h : (t.modify owner fun n => { n with attributes := f n }).Relinked c link t') :
    t.Relinked c link t' where
  parent?_eq := by
    have hSame : (t.modify owner fun n => { n with attributes := f n }).parent? = t.parent? :=
      parent?_modify fun _ => rfl
    rw [h.parent?_eq, hSame]
  childrenOf_eq := h.childrenOf_eq.trans (childrenOf_modify fun _ => rfl)
  numbered ht := h.numbered (ht.modify fun _ => rfl)
  resolve ht := h.resolve (ht.modify (fun _ _ hp => Or.inl hp) fun _ _ hk => Or.inl hk)

theorem rooted (h : t.Relinked c link t') (ht : t.Rooted) (hAcyclic : t'.Acyclic) :
    t'.Rooted where
  numbered := h.numbered ht.numbered
  resolve := h.resolve ht.resolve
  grounded := by
    cases link with
    | none =>
      rw [h.parent?_eq]
      exact ht.grounded.of_le ParentMap.le_of_update_none
    | some p =>
      simp only [Acyclic, Ancestor, h.parent?_eq] at hAcyclic ⊢
      exact ht.grounded.update hAcyclic

theorem tidy (h : t.Relinked c link t') (ht : t.Tidy) (hNot : ∀ p, c ∉ t.childrenOf p)
    (hAcyclic : t'.Acyclic) : t'.Tidy where
  numbered := h.numbered ht.numbered
  resolve := h.resolve ht.resolve
  forest := {
    parent_of_mem := by
      intro p x hMem
      rw [h.childrenOf_eq] at hMem
      have hNe : x ≠ c := fun hEq => hNot p (hEq ▸ hMem)
      rw [h.parent?_eq, Function.update_of_ne hNe]
      exact ht.forest.parent_of_mem hMem
    mem_of_parent := False.elim
    nodup_children := by
      rw [h.childrenOf_eq]
      exact ht.forest.nodup_children
    grounded := (h.rooted ht.rooted hAcyclic).grounded }

end Relinked

theorem addAttribute_eq_ok_iff :
    t.addAttribute owner (some c) = .ok t' ↔ (t.get? owner).isSome ∧ (t.get? c).isSome ∧
      t' = (t.setParent c (some owner)).setAttributes owner (· ++ [c]) := by
  rw [addAttribute, bind_eq_ok]
  constructor
  · rintro ⟨m, hm, hRest⟩
    obtain ⟨t₁, hUpdate, hPure⟩ := bind_eq_ok.mp hRest
    obtain ⟨hc, rfl⟩ := update_eq_ok_iff.mp hUpdate
    exact ⟨Option.isSome_of_eq_some (node_eq_ok_iff.mp hm), hc, (Except.ok.inj hPure).symm⟩
  · rintro ⟨hOwner, hc, rfl⟩
    obtain ⟨m, hm⟩ := Option.isSome_iff_exists.mp hOwner
    exact ⟨m, node_of_get? hm, bind_eq_ok.mpr ⟨_, update_eq_ok_iff.mpr ⟨hc, rfl⟩, rfl⟩⟩

theorem relinked_addAttribute (hOwner : (t.get? owner).isSome) (hc : (t.get? c).isSome) :
    t.Relinked c (some owner) ((t.setParent c (some owner)).setAttributes owner (· ++ [c])) := by
  refine (relinked_setParent hc fun p hp => ?_).setAttributes _
  cases hp
  exact hOwner

theorem removeAttribute_cases {found : Bool} (h : t.removeAttribute owner c = .ok (found, t')) :
    t' = t ∨ (t.get? c).isSome ∧ c ∈ t.attributesOf owner ∧
      t' = (t.setAttributes owner (·.erase c)).setParent c none := by
  obtain ⟨m, hm, hRest⟩ := bind_eq_ok.mp h
  split at hRest
  · rename_i hMem
    obtain ⟨t₁, hUpdate, hPure⟩ := bind_eq_ok.mp hRest
    obtain ⟨hc, rfl⟩ := update_eq_ok_iff.mp hUpdate
    cases hPure
    refine Or.inr ⟨by rwa [isSome_get?_modify] at hc, ?_, rfl⟩
    rwa [attributesOf, listOf_of_get? (node_eq_ok_iff.mp hm)]
  · cases hRest
    exact Or.inl rfl

theorem relinked_removeAttribute (hc : (t.get? c).isSome) :
    t.Relinked c none ((t.setAttributes owner (·.erase c)).setParent c none) := by
  refine Relinked.of_setAttributes (relinked_setParent ?_ (by simp))
  rwa [isSome_get?_modify]

theorem removeChild_of_mem (hMem : c ∈ t.childrenOf p) (hSome : (t.get? c).isSome) :
    t.removeChild p c = .ok (true, (t.setChildren p (·.erase c)).setParent c none) := by
  obtain ⟨n, hGet⟩ := Option.isSome_iff_exists.mp (isSome_of_mem_childrenOf hMem)
  have hUpdate : (t.setChildren p (·.erase c)).update c (fun n => { n with parent := none }) =
      .ok ((t.setChildren p (·.erase c)).setParent c none) :=
    update_eq_ok_iff.mpr ⟨isSome_get?_setChildren.trans hSome, rfl⟩
  rw [childrenOf_of_get? hGet] at hMem
  rw [removeChild, node_of_get? hGet]
  refine (if_pos hMem).trans ?_
  change Tree.update (t.setChildren p (·.erase c)) c _ >>= _ = _
  rw [hUpdate]
  rfl

end Tree

namespace ChildEdit

variable {t t' : Tree} {p c : NodeId} {edits : List ChildEdit}

theorem run_addChild {child : Option NodeId} (h : t.addChild p child = .ok t') :
    run (.addChild p child :: edits) t = run edits t' := by
  have hAfter : (ChildEdit.addChild p child).step.after t = t' :=
    Build.after_edit_ok (by rw [h]; rfl)
  exact congrArg (run edits) hAfter

theorem run_removeChild (hMem : c ∈ t.childrenOf p) (hSome : (t.get? c).isSome) :
    run (.removeChild p c :: edits) t =
      run edits ((t.setChildren p (·.erase c)).setParent c none) := by
  have hAfter : (ChildEdit.removeChild p c).step.after t =
      (t.setChildren p (·.erase c)).setParent c none :=
    (Build.after_discard _ t).trans (Build.after_edit_ok (Tree.removeChild_of_mem hMem hSome))
  exact congrArg (run edits) hAfter

end ChildEdit

namespace Tree

variable {t : Tree} {c p : NodeId}

/-! ## Trees that are not tidy -/

theorem childrenOf_setChildren_of_ne {q x : NodeId} {f : List NodeId → List NodeId} (hNe : x ≠ q) :
    (t.setChildren q f).childrenOf x = t.childrenOf x := by
  rw [childrenOf, childrenOf, setChildren, get?_modify_of_ne hNe]

theorem childrenOf_moveTo_of_ne {x : NodeId} (hNe : t.parent? c ≠ some x) :
    (t.moveTo p c).childrenOf x = t.childrenOf x := by
  rw [moveTo, childrenOf_setParent, leaveParent]
  split
  · rfl
  · rename_i q hq
    exact childrenOf_setChildren_of_ne fun hEq => hNe (hEq ▸ hq)

/-- A child under which its parent may go: both are then among the children of the other. -/
theorem Rooted.exists_cycle_of_not_above (h : t.Rooted) (hc : c ∈ t.childrenOf p)
    (hUp : ¬ t.Ancestor p c) : ∃ edits id, (ChildEdit.run edits t).Below id id := by
  by_cases hNe : p = c
  · exact ⟨[], c, .single (hNe ▸ hc)⟩
  · have hCan : t.CanAdopt c p :=
      ⟨h.resolve.isSome_of_mem hc, isSome_of_mem_childrenOf hc, hNe, hUp⟩
    have hSelf : t.parent? p ≠ some p :=
      fun hEdge => h.grounded.not_ancestor_self p (ParentMap.ancestor_of_edge hEdge)
    refine ⟨[.addChild c (some p)], c, ?_⟩
    rw [ChildEdit.run_addChild ((addChild_eq_ok_iff h).mpr ⟨hCan, rfl⟩)]
    have hDown : c ∈ ((t.moveTo c p).setChildren c (· ++ [p])).childrenOf p := by
      rwa [childrenOf_setChildren_of_ne hNe, childrenOf_moveTo_of_ne hSelf]
    have hBack : p ∈ ((t.moveTo c p).setChildren c (· ++ [p])).childrenOf c := by
      rw [childrenOf_setChildren (isSome_get?_moveTo.trans hCan.parent), Function.update_self]
      exact List.mem_append_right _ List.mem_cons_self
    exact (Relation.TransGen.single hDown).tail hBack

/-- A child that stands twice in a list still stands there when it was taken out. -/
theorem Rooted.exists_cycle_of_duplicate (h : t.Rooted) (hc : c ∈ (t.childrenOf p).erase c) :
    ∃ edits id, (ChildEdit.run edits t).Below id id := by
  have hMem := List.mem_of_mem_erase hc
  have hSome := h.resolve.isSome_of_mem hMem
  have hLeft : ((t.setChildren p (·.erase c)).setParent c none).childrenOf p =
      (t.childrenOf p).erase c := by
    rw [childrenOf_setParent, childrenOf_setChildren (isSome_of_mem_childrenOf hMem),
      Function.update_self]
  have hUp : ¬ ((t.setChildren p (·.erase c)).setParent c none).Ancestor p c := by
    intro hUp
    obtain ⟨q, hq, -⟩ := ParentMap.ancestor_iff.mp hUp
    rw [parent?_setParent (isSome_get?_setChildren.trans hSome), Function.update_self] at hq
    cases hq
  obtain ⟨edits, id, hCycle⟩ :=
    (h.edited (.remove hMem)).exists_cycle_of_not_above (hLeft ▸ hc) hUp
  exact ⟨.removeChild p c :: edits, id, by rwa [ChildEdit.run_removeChild hMem hSome]⟩

/-- Edits of children make a cycle in a tree that is not tidy. -/
theorem Rooted.exists_cycle (h : t.Rooted) (hUntidy : ¬ t.Tidy) :
    ∃ edits id, (ChildEdit.run edits t).Below id id := by
  by_cases hNodup : ∀ p, (t.childrenOf p).Nodup
  · have hStray : ∃ p c, c ∈ t.childrenOf p ∧ t.parent? c ≠ some p := by
      by_contra hNone
      push Not at hNone
      exact hUntidy ⟨h.numbered, h.resolve, fun {p c} => hNone p c, False.elim, hNodup, h.grounded⟩
    obtain ⟨p, c, hc, hNe⟩ := hStray
    by_cases hUp : t.Ancestor p c
    · -- the parent is above the child, but not next to it: there the child is put once more
      have hCan : t.CanAdopt p c := by
        refine ⟨isSome_of_mem_childrenOf hc, h.resolve.isSome_of_mem hc, ?_, fun hDown => ?_⟩
        · rintro rfl
          exact h.grounded.not_ancestor_self c hUp
        · exact h.grounded.not_ancestor_self c (hDown.trans hUp)
      have hTwice : c ∈ (((t.moveTo p c).setChildren p (· ++ [c])).childrenOf p).erase c := by
        rw [childrenOf_setChildren (isSome_get?_moveTo.trans hCan.parent), Function.update_self,
          childrenOf_moveTo_of_ne hNe, List.erase_append_left _ hc]
        exact List.mem_append_right _ List.mem_cons_self
      obtain ⟨edits, id, hCycle⟩ :=
        (h.edited (.place hCan fun _ => List.perm_append_singleton _ _)).exists_cycle_of_duplicate
          hTwice
      refine ⟨.addChild p (some c) :: edits, id, ?_⟩
      rwa [ChildEdit.run_addChild ((addChild_eq_ok_iff h).mpr ⟨hCan, rfl⟩)]
    · exact h.exists_cycle_of_not_above hc hUp
  · push Not at hNodup
    obtain ⟨p, hp⟩ := hNodup
    rw [List.nodup_iff_count_le_one] at hp
    push Not at hp
    obtain ⟨c, hc⟩ := hp
    refine h.exists_cycle_of_duplicate (p := p) (c := c) ?_
    rw [← List.count_pos_iff, List.count_erase_self]
    exact Nat.sub_pos_of_lt hc

theorem exists_node_of_mem_childrenOf (h : c ∈ t.childrenOf p) : ∃ n ∈ t.nodes, c ∈ n.children := by
  obtain ⟨n, hGet⟩ := Option.isSome_iff_exists.mp (isSome_of_mem_childrenOf h)
  obtain ⟨i, -, -, hItem⟩ := Pool.get?_eq_some_iff.mp hGet
  exact ⟨n, Array.mem_toList_iff.mpr (Array.mem_of_getElem? hItem), childrenOf_of_get? hGet ▸ h⟩

end Tree

/-! ## Runs of all edits -/

/-- Everything that changes the links of a tree: the edits of children and those of attributes. -/
inductive TreeEdit where
  | child (edit : ChildEdit)
  | addAttribute (owner : NodeId) (added : Option NodeId)
  | removeAttribute (owner removed : NodeId)

namespace TreeEdit

def step : TreeEdit → Build Unit
  | .child edit => edit.step
  | .addAttribute owner added => Build.edit fun t => return ((), ← t.addAttribute owner added)
  | .removeAttribute owner removed => discard (Build.edit fun t => t.removeAttribute owner removed)

/-- The tree after some edits, each of which may have been refused. -/
def run (edits : List TreeEdit) (t : Tree) : Tree := edits.foldl (fun t e => e.step.after t) t

/-- The node that is made an attribute, or is none any more. -/
def attribute? : TreeEdit → Option NodeId
  | .child _ => none
  | .addAttribute _ added => added
  | .removeAttribute _ removed => some removed

/-- The owner and the node of an edit that makes an attribute. -/
def newAttribute? : TreeEdit → Option (NodeId × NodeId)
  | .addAttribute owner (some added) => some (owner, added)
  | _ => none

variable {t : Tree}

/-- What becomes of a tree by an edit of attributes. -/
inductive AttributeStep (t : Tree) : TreeEdit → Tree → Prop
  | same {e : TreeEdit} (hNone : ∀ new ∈ e.newAttribute?, (t.get? new.1).isSome →
      t.get? new.2 = none) : AttributeStep t e t
  | added {owner c : NodeId} (hOwner : (t.get? owner).isSome) (hc : (t.get? c).isSome) :
      AttributeStep t (.addAttribute owner (some c))
        ((t.setParent c (some owner)).setAttributes owner (· ++ [c]))
  | removed {owner c : NodeId} (hMem : c ∈ t.attributesOf owner) (hc : (t.get? c).isSome) :
      AttributeStep t (.removeAttribute owner c)
        ((t.setAttributes owner (·.erase c)).setParent c none)

theorem child_or_attributeStep (e : TreeEdit) (t : Tree) :
    (∃ edit, e = .child edit) ∨ AttributeStep t e (e.step.after t) := by
  cases e with
  | child edit => exact .inl ⟨edit, rfl⟩
  | addAttribute owner added =>
    refine .inr ?_
    cases added with
    | none => exact .same nofun
    | some c =>
      cases hRun : t.addAttribute owner (some c) with
      | error e =>
        have hAfter : (TreeEdit.addAttribute owner (some c)).step.after t = t :=
          Build.after_edit_error (by rw [hRun]; rfl)
        rw [hAfter]
        refine .same fun new hNew hOwner => ?_
        cases hNew
        by_contra hSome
        have hOk := Tree.addAttribute_eq_ok_iff.mpr
          ⟨hOwner, Option.isSome_iff_ne_none.mpr hSome, rfl⟩
        cases hRun.symm.trans hOk
      | ok t' =>
        have hAfter : (TreeEdit.addAttribute owner (some c)).step.after t = t' :=
          Build.after_edit_ok (by rw [hRun]; rfl)
        obtain ⟨hOwner, hc, rfl⟩ := Tree.addAttribute_eq_ok_iff.mp hRun
        rw [hAfter]
        exact .added hOwner hc
  | removeAttribute owner removed =>
    refine .inr ?_
    have hDiscard := Build.after_discard (Build.edit fun t => t.removeAttribute owner removed) t
    cases hRun : t.removeAttribute owner removed with
    | error e =>
      rw [step, hDiscard, Build.after_edit_error hRun]
      exact .same nofun
    | ok result =>
      rw [step, hDiscard, Build.after_edit_ok hRun]
      rcases Tree.removeAttribute_cases hRun with hSame | ⟨hc, hMem, hRemoved⟩
      · rw [hSame]
        exact .same nofun
      · rw [hRemoved]
        exact .removed hMem hc

/-- An edit of attributes is refused, does nothing, or changes the parent of its node. -/
theorem step_cases (e : TreeEdit) (t : Tree) :
    (∃ edit, e = .child edit) ∨ e.step.after t = t ∨
      ∃ c ∈ e.attribute?, ∃ link, t.Relinked c link (e.step.after t) := by
  refine (child_or_attributeStep e t).imp_right fun hStep => ?_
  generalize e.step.after t = t' at hStep
  cases hStep with
  | same => exact Or.inl rfl
  | @added owner c hOwner hc =>
    exact Or.inr ⟨c, rfl, some owner, Tree.relinked_addAttribute hOwner hc⟩
  | @removed owner c hMem hc => exact Or.inr ⟨c, rfl, none, Tree.relinked_removeAttribute hc⟩

theorem rooted_step (e : TreeEdit) (h : t.Rooted) (hAcyclic : (e.step.after t).Acyclic) :
    (e.step.after t).Rooted := by
  rcases step_cases e t with ⟨edit, rfl⟩ | hSame | ⟨c, -, link, hLinks⟩
  · exact edit.keeps_step Tree.Rooted.invariant t h
  · rwa [hSame]
  · exact hLinks.rooted h hAcyclic

theorem tidy_step (e : TreeEdit) (h : t.Tidy) (hAcyclic : (e.step.after t).Acyclic)
    (hSpare : ∀ c ∈ e.attribute?, ∀ p, c ∉ t.childrenOf p) : (e.step.after t).Tidy := by
  rcases step_cases e t with ⟨edit, rfl⟩ | hSame | ⟨c, hc, link, hLinks⟩
  · exact edit.keeps_step Tree.Linked.invariant t h
  · rwa [hSame]
  · exact hLinks.tidy h (hSpare c hc) hAcyclic

/-- No parent chain becomes cyclic while the edits are made. -/
def StaysAcyclic (edits : List TreeEdit) (t : Tree) : Prop :=
  ∀ before after, edits = before ++ after → (run before t).Acyclic

/-- A node that is made an attribute, or is none any more, stands among the children of no node at
that time. -/
def SparesChildren (edits : List TreeEdit) (t : Tree) : Prop :=
  ∀ before e after, edits = before ++ e :: after → ∀ c ∈ e.attribute?,
    ∀ p, c ∉ (run before t).childrenOf p

theorem rooted_run (edits : List TreeEdit) (h : t.Rooted) (hAcyclic : StaysAcyclic edits t) :
    (run edits t).Rooted := by
  induction edits generalizing t with
  | nil => exact h
  | cons e rest ih =>
    refine ih (rooted_step e h (hAcyclic [e] rest rfl)) fun before after hSplit => ?_
    exact hAcyclic (e :: before) after (congrArg (e :: ·) hSplit)

theorem tidy_run (edits : List TreeEdit) (h : t.Tidy) (hAcyclic : StaysAcyclic edits t)
    (hSpares : SparesChildren edits t) : (run edits t).Tidy := by
  induction edits generalizing t with
  | nil => exact h
  | cons e rest ih =>
    refine ih (tidy_step e h (hAcyclic [e] rest rfl) (hSpares [] e rest rfl))
      (fun before after hSplit => ?_) fun before e' after hSplit => ?_
    · exact hAcyclic (e :: before) after (congrArg (e :: ·) hSplit)
    · exact hSpares (e :: before) e' after (congrArg (e :: ·) hSplit)

/-- Parents rank above the nodes whose parents they are. -/
def Rises (t : Tree) (rank : NodeId → Nat) : Prop :=
  ∀ i : Fin t.pool.items.size, ∀ p ∈ (t.pool.items[i]).parent, rank (t.pool.handle i) < rank p

instance (t : Tree) (rank : NodeId → Nat) : Decidable (Rises t rank) :=
  inferInstanceAs (Decidable (∀ i : Fin t.pool.items.size, ∀ p ∈ (t.pool.items[i]).parent, _))

theorem Rises.acyclic {rank : NodeId → Nat} (h : Rises t rank) : t.Acyclic := by
  have hEdge : ∀ c p, t.parent? c = some p → rank c < rank p := by
    intro c p hp
    obtain ⟨n, hGet, hParent⟩ := Option.bind_eq_some_iff.mp hp
    obtain ⟨i, -, rfl, hItem⟩ := Pool.get?_eq_some_iff.mp hGet
    obtain ⟨hi, rfl⟩ := Array.getElem?_eq_some_iff.mp hItem
    exact h ⟨i, hi⟩ p hParent
  have hAbove : ∀ a b, t.Ancestor a b → rank b < rank a := by
    intro a b hUp
    induction hUp with
    | single hLink => exact hEdge _ _ hLink
    | tail _ hLink ih => exact (hEdge _ _ hLink).trans ih
  exact fun id hCycle => Nat.lt_irrefl _ (hAbove id id hCycle)

/-- A run of edits stays acyclic if in each of its trees the parents rank above. -/
theorem staysAcyclic_of_rises {edits : List TreeEdit} (rank : Nat → NodeId → Nat)
    (h : ∀ k ≤ edits.length, Rises (run (edits.take k) t) (rank k)) : StaysAcyclic edits t := by
  rintro before after rfl
  have hRises := h before.length (by rw [List.length_append]; exact Nat.le_add_right _ _)
  rw [List.take_left] at hRises
  exact hRises.acyclic

/-- In a tree that was made without a cyclic parent chain, traversals end, and go on to end however
the children are edited, exactly if the tree is tidy. It is if no child was made an attribute. -/
theorem traversalsEnd_iff_tidy (generation : Nat) (edits : List TreeEdit)
    (hAcyclic : StaysAcyclic edits (Tree.empty generation)) :
    ((∀ later : List ChildEdit,
        (ChildEdit.run later (run edits (Tree.empty generation))).TraversalsEnd) ↔
      (run edits (Tree.empty generation)).Tidy) ∧
    (SparesChildren edits (Tree.empty generation) → (run edits (Tree.empty generation)).Tidy) := by
  have hEmpty := Tree.wellLinked_empty generation
  refine ⟨⟨fun hEnd => ?_, fun hTidy later => ?_⟩, tidy_run edits hEmpty.weaken hAcyclic⟩
  · by_contra hUntidy
    obtain ⟨later, id, hCycle⟩ := (rooted_run edits hEmpty.rooted hAcyclic).exists_cycle hUntidy
    exact (hEnd later).acyclic id hCycle
  · exact (ChildEdit.keeps_run Tree.Linked.invariant later hTidy).traversalsEnd

/-- Two blocks are built and the first is made an attribute of the second. -/
def blockMadeAttribute : List TreeEdit :=
  [.child (.build (.ok (.block [])) default), .child (.build (.ok (.block [])) default),
    .addAttribute 1 (some 0)]

theorem traversalsEnd_iff_tidy_block :
    StaysAcyclic blockMadeAttribute (Tree.empty 0) ∧
      SparesChildren blockMadeAttribute (Tree.empty 0) ∧ ∀ later : List ChildEdit,
        (ChildEdit.run later (run blockMadeAttribute (Tree.empty 0))).TraversalsEnd := by
  have hAcyclic : StaysAcyclic blockMadeAttribute (Tree.empty 0) := by
    refine staysAcyclic_of_rises (fun _ id => id.toNat?.getD 0) ?_
    decide +kernel
  have hSpares : SparesChildren blockMadeAttribute (Tree.empty 0) := by
    have hNone : ∀ k < 3, (run (blockMadeAttribute.take k) (Tree.empty 0)).nodes.all
        (·.children.isEmpty) := by
      decide +kernel
    intro before e after hSplit c _ p hMem
    have hLength : before.length < 3 := by
      have hLength := congrArg List.length hSplit
      rw [List.length_append, List.length_cons] at hLength
      simp only [blockMadeAttribute, List.length_cons, List.length_nil] at hLength
      omega
    have hLeaf := hNone before.length hLength
    rw [hSplit, List.take_left] at hLeaf
    obtain ⟨n, hn, hMem⟩ := Tree.exists_node_of_mem_childrenOf hMem
    have hEmpty := List.all_eq_true.mp hLeaf n hn
    rw [List.isEmpty_iff.mp hEmpty] at hMem
    cases hMem
  obtain ⟨hEnd, hTidy⟩ := traversalsEnd_iff_tidy 0 blockMadeAttribute hAcyclic
  exact ⟨hAcyclic, hSpares, hEnd.mpr (hTidy hSpares)⟩

/-! ## A child that becomes an attribute -/

/-- Three blocks are built and the second is put under the first. It is made an attribute of the
third, and the first is put under it. -/
def childMadeAttribute : List TreeEdit :=
  [.child (.build (.ok (.block [])) default), .child (.build (.ok (.block [])) default),
    .child (.build (.ok (.block [])) default), .child (.addChild 0 (some 1)),
    .addAttribute 2 (some 1), .child (.addChild 1 (some 0))]

/-- No parent chain was cyclic, but of two nodes each is a child of the other, and the nodes below
cannot be counted. -/
theorem childMadeAttribute_cycle :
    StaysAcyclic childMadeAttribute (Tree.empty 0) ∧
      (run childMadeAttribute (Tree.empty 0)).Below 0 0 ∧
      (run childMadeAttribute (Tree.empty 0)).count 0 = .error (.tooDeep 0) := by
  have hAcyclic : StaysAcyclic childMadeAttribute (Tree.empty 0) := by
    -- once the second block is an attribute, the third is at the top
    refine staysAcyclic_of_rises
      (fun k id => if k ≤ 4 then 2 - id.toNat?.getD 0 else id.toNat?.getD 0) ?_
    decide +kernel
  have hDown : (1 : NodeId) ∈ (run childMadeAttribute (Tree.empty 0)).childrenOf 0 := by
    decide +kernel
  have hBack : (0 : NodeId) ∈ (run childMadeAttribute (Tree.empty 0)).childrenOf 1 := by
    decide +kernel
  have hCount : (run childMadeAttribute (Tree.empty 0)).count 0 = .error (.tooDeep 0) := by
    decide +kernel
  exact ⟨hAcyclic, .tail (b := 1) (.single hBack) hDown, hCount⟩

end TreeEdit

end SemanticCore
