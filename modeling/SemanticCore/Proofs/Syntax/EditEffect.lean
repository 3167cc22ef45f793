import SemanticCore.Proofs.Syntax.FailedEdit
import SemanticCore.Proofs.Syntax.Generation

/-!
# What an edit of children changes

An edit of children moves one node. The node leaves the children of its parent, which keep their
order, and gets among those of the new one; a node whose place it takes loses its parent. Nothing
else about any node changes.

* `Tree.OnlyLinks`: two trees that differ in parents and children only.
* `Tree.Rearranged`: the lists of children after a node left its parent for another one.
* `ChildEdit.placed_run`: where a node stands after it was put among the children of another.
* `ChildEdit.replaced_run`: what it means to take the place of a child.
-/

namespace SemanticCore

namespace Tree

variable {t t' t'' : Tree} {id k p c old next : NodeId} {n : Node} {strict : Prop}

/-! ## The rest of a tree -/

/-- There are as many nodes as before, and all but the parent and the children of a node is as it
was. -/
structure OnlyLinks (t t' : Tree) : Prop where
  size_eq : t'.size = t.size
  get?_eq : ∀ k, t'.get? k = (t.get? k).map fun n =>
    { n with parent := t'.parent? k, children := t'.childrenOf k }

namespace OnlyLinks

theorem refl (t : Tree) : t.OnlyLinks t where
  size_eq := rfl
  get?_eq k := by
    cases hGet : t.get? k with
    | none => rfl
    | some n => rw [Option.map_some, parent?_of_get? hGet, childrenOf_of_get? hGet]

theorem trans (h : t.OnlyLinks t') (h' : t'.OnlyLinks t'') : t.OnlyLinks t'' where
  size_eq := h'.size_eq.trans h.size_eq
  get?_eq k := by
    rw [h'.get?_eq, h.get?_eq, Option.map_map]
    rfl

theorem modify {f : Node → Node}
    (hf : ∀ n, f n = { n with parent := (f n).parent, children := (f n).children }) :
    t.OnlyLinks (t.modify id f) where
  size_eq := size_modify t id f
  get?_eq k := by
    -- A tree agrees with itself; at the changed node, what it agrees on is that of before.
    have hSelf := (refl (t.modify id f)).get?_eq k
    rw [get?_modify] at hSelf ⊢
    by_cases hId : k = id
    · rw [if_pos hId] at hSelf ⊢
      cases hGet : t.get? k with
      | none => rfl
      | some n =>
        rw [hGet, Option.map_some, Option.map_some] at hSelf
        rw [Option.map_some, Option.map_some, hSelf, hf n]
    · rwa [if_neg hId] at hSelf ⊢

theorem setParent {link : Option NodeId} : t.OnlyLinks (t.setParent id link) := modify fun _ => rfl

theorem setChildren {f : List NodeId → List NodeId} : t.OnlyLinks (t.setChildren id f) :=
  modify fun _ => rfl

theorem moveTo : t.OnlyLinks (t.moveTo p c) := by
  have hLeft : t.OnlyLinks (t.leaveParent c) := by
    unfold leaveParent
    split
    · exact refl t
    · exact setChildren
  exact hLeft.trans setParent

end OnlyLinks

/-! ## The lists of children -/

/-- A node has left the children of its parent for another one, which has these children then. -/
structure Rearranged (t : Tree) (p c : NodeId) (children : List NodeId) (t' : Tree) : Prop where
  rest : t.OnlyLinks t'
  children_eq : t'.childrenOf p = children
  left : ∀ q, q ≠ p → t.parent? c = some q → t'.childrenOf q = (t.childrenOf q).erase c
  others : ∀ q, q ≠ p → t.parent? c ≠ some q → t'.childrenOf q = t.childrenOf q

theorem Linked.rearranged (h : t.Linked strict) {children : List NodeId} (hRest : t.OnlyLinks t')
    (hChildren : t'.childrenOf = Function.update (fun q => (t.childrenOf q).erase c) p children) :
    t.Rearranged p c children t' where
  rest := hRest
  children_eq := by rw [hChildren, Function.update_self]
  left q hq _ := by rw [hChildren, Function.update_of_ne hq]
  others q hq hNot := by
    rw [hChildren, Function.update_of_ne hq]
    exact List.erase_of_not_mem fun hMem => hNot (h.forest.parent_of_mem hMem)

/-! ## A node among the children of another -/

/-- A node stands at a place among the other children of a node, and nowhere else. -/
structure Placed (t : Tree) (p c : NodeId) (place : Nat) (t' : Tree) : Prop where
  rearranged : t.Rearranged p c (((t.childrenOf p).erase c).insertIdx place c) t'
  parent?_eq : t'.parent? = Function.update t.parent? c (some p)

theorem Linked.placed (h : t.Linked strict) (hCan : t.CanAdopt p c)
    {f : List NodeId → List NodeId} {place : Nat}
    (hf : f ((t.childrenOf p).erase c) = ((t.childrenOf p).erase c).insertIdx place c) :
    t.Placed p c place ((t.moveTo p c).setChildren p f) where
  rearranged := by
    refine h.rearranged (OnlyLinks.moveTo.trans .setChildren) ?_
    rw [h.childrenOf_place hCan.parent, hf]
  parent?_eq := hCan.parent?_place

theorem CanAdopt.of_topmost (hp : (t.get? p).isSome) (hc : (t.get? c).isSome) (hNe : c ≠ p)
    (hTop : t.parent? p = none) : t.CanAdopt p c where
  parent := hp
  child := hc
  ne := hNe
  not_above hUp := by
    obtain ⟨q, hq, -⟩ := ParentMap.ancestor_iff.mp hUp
    rw [hTop] at hq
    cases hq

theorem insertChild_of_canAdopt (h : t.Rooted) (hCan : t.CanAdopt p c) (index : Number) :
    t.insertChild p index c = .ok ((t.moveTo p c).setChildren p
      fun l => l.insertIdx (index.clampTo l.length) c) := by
  obtain ⟨n, hGet⟩ := Option.isSome_iff_exists.mp hCan.parent
  rw [insertChild, node_of_get? hGet, ok_bind, (adopt_eq_ok_iff h hCan.parent).mpr ⟨hCan, rfl⟩]
  rfl

theorem clampTo_ofInt (length : Nat) (k : Int) :
    (Number.ofInt k).clampTo length = (min (max k 0) length).toNat := by
  have hTruncate : Number.truncate (k : Rat) = k := by
    unfold Number.truncate
    split <;> simp
  simp only [Number.ofInt, Number.clampTo, hTruncate]
  omega

/-! ## A node in the place of a child -/

/-- A node stands where another stood among the children of a node, and that one has no parent. -/
structure Replaced (t : Tree) (p old next : NodeId) (t' : Tree) : Prop where
  rearranged : ∃ before after, (t.childrenOf p).erase next = before ++ old :: after ∧
    t.Rearranged p next (before ++ next :: after) t'
  parent?_eq : t'.parent? = Function.update (Function.update t.parent? old none) next (some p)

theorem Linked.replaced (h : t.Linked strict) (hCan : t.CanAdopt p next)
    (hOld : old ∈ t.childrenOf p) (hOther : old ≠ next) :
    t.Replaced p old next
      (((t.moveTo p next).setChildren p (·.replace old next)).setParent old none) where
  rearranged := by
    obtain ⟨before, after, hSplit, hFirst⟩ :=
      List.eq_append_cons_of_mem ((List.mem_erase_of_ne hOther).mpr hOld)
    refine ⟨before, after, hSplit,
      h.rearranged ((OnlyLinks.moveTo.trans .setChildren).trans .setParent) ?_⟩
    rw [childrenOf_setParent, h.childrenOf_place hCan.parent, hSplit,
      List.replace_append_right hFirst, List.replace_cons_self]
  parent?_eq := parent?_replace hCan (h.resolve.isSome_of_mem hOld) hOther

theorem replaceChild_of_canAdopt (h : t.Rooted) (hCan : t.CanAdopt p next)
    (hOld : old ∈ t.childrenOf p) (hOther : old ≠ next) :
    t.replaceChild p old next =
      .ok (true, ((t.moveTo p next).setChildren p (·.replace old next)).setParent old none) := by
  obtain ⟨n, hGet⟩ := Option.isSome_iff_exists.mp hCan.parent
  have hSome : (((t.moveTo p next).setChildren p (·.replace old next)).get? old).isSome := by
    rw [isSome_get?_setChildren, isSome_get?_moveTo]
    exact h.resolve.isSome_of_mem hOld
  rw [childrenOf_of_get? hGet] at hOld
  rw [replaceChild, node_of_get? hGet, ok_bind, if_neg (not_not.mpr hOld), if_neg hOther,
    (adopt_eq_ok_iff h hCan.parent).mpr ⟨hCan, rfl⟩, ok_bind]
  exact bind_eq_ok.mpr ⟨_, update_eq_ok_iff.mpr ⟨hSome, rfl⟩, rfl⟩

theorem replaceChild_self (hOld : old ∈ t.childrenOf p) :
    t.replaceChild p old old = .ok (true, t) := by
  obtain ⟨n, hGet⟩ := Option.isSome_iff_exists.mp (isSome_of_mem_childrenOf hOld)
  rw [childrenOf_of_get? hGet] at hOld
  rw [replaceChild, node_of_get? hGet, ok_bind, if_neg (not_not.mpr hOld), if_pos rfl]
  rfl

end Tree

namespace ChildEdit

variable {t : Tree} {p c old : NodeId}

/-- Wherever a node is put, it is counted among the other children: an index that is out of range
stands for the first place or for the last one. -/
theorem placed_run (generation : Nat) (edits : List ChildEdit)
    (hRun : run edits (Tree.empty generation) = t) (hCan : t.CanAdopt p c) :
    (∀ k : Int, ∃ t', (LinkEdit.insertChild p (.ofInt k) c).perform t = (.ok true, t') ∧
      t.Placed p c (min (max k 0) ((t.childrenOf p).erase c).length).toNat t') ∧
    ∃ t', (LinkEdit.addChild p (some c)).perform t = (.ok true, t') ∧
      t.Placed p c ((t.childrenOf p).erase c).length t' := by
  have h : t.WellLinked := hRun ▸ wellLinked_run (Tree.wellLinked_empty generation) edits
  have hClosed : t.Closed := hRun ▸ TreeEdit.closed_childRun edits (Tree.Closed.empty generation)
  constructor
  · intro k
    have hInsert := Tree.insertChild_of_canAdopt h.rooted hCan (.ofInt k)
    refine ⟨_, LinkEdit.perform_of_ok hClosed (bind_eq_ok.mpr ⟨_, hInsert, rfl⟩),
      h.placed hCan ?_⟩
    rw [Tree.clampTo_ofInt]
  · have hAdd := (Tree.addChild_eq_ok_iff h.rooted).mpr ⟨hCan, rfl⟩
    refine ⟨_, LinkEdit.perform_of_ok hClosed (bind_eq_ok.mpr ⟨_, hAdd, rfl⟩),
      h.placed hCan ?_⟩
    exact (List.insertIdx_length_self ..).symm

/-- A block holds two blocks, and the first of these another. -/
def nestedBlocks : List ChildEdit :=
  [.build (.ok (.block [])) default, .build (.ok (.block [some 0])) default,
    .build (.ok (.block [])) default, .build (.ok (.block [some 1, some 2])) default]

theorem placed_run_sibling :
    (run nestedBlocks (Tree.empty 0)).CanAdopt 3 1 ∧
      ∃ t', (LinkEdit.insertChild 3 (.ofInt 1) 1).perform (run nestedBlocks (Tree.empty 0)) =
        (.ok true, t') ∧ t'.childrenOf 3 = [2, 1] := by
  have hCan : (run nestedBlocks (Tree.empty 0)).CanAdopt 3 1 :=
    .of_topmost (by decide +kernel) (by decide +kernel) (by decide) (by decide +kernel)
  obtain ⟨t', hOk, hPlaced⟩ := (placed_run 0 nestedBlocks rfl hCan).1 1
  refine ⟨hCan, t', hOk, hPlaced.rearranged.children_eq.trans ?_⟩
  decide +kernel

/-- A node takes the place of a child, wherever it stood itself. A child takes its own place. -/
theorem replaced_run (generation : Nat) (edits : List ChildEdit)
    (hRun : run edits (Tree.empty generation) = t) (hOld : old ∈ t.childrenOf p) :
    (∀ next, t.CanAdopt p next → next ≠ old →
      ∃ t', (LinkEdit.replaceChild p old next).perform t = (.ok true, t') ∧
        t.Replaced p old next t') ∧
    (LinkEdit.replaceChild p old old).perform t = (.ok true, t) := by
  have h : t.WellLinked := hRun ▸ wellLinked_run (Tree.wellLinked_empty generation) edits
  have hClosed : t.Closed := hRun ▸ TreeEdit.closed_childRun edits (Tree.Closed.empty generation)
  constructor
  · intro next hCan hOther
    have hReplace := Tree.replaceChild_of_canAdopt h.rooted hCan hOld hOther.symm
    exact ⟨_, LinkEdit.perform_of_ok hClosed hReplace, h.replaced hCan hOld hOther.symm⟩
  · exact LinkEdit.perform_of_ok hClosed (Tree.replaceChild_self hOld)

theorem replaced_run_nested :
    (1 ∈ (run nestedBlocks (Tree.empty 0)).childrenOf 3 ∧
      (run nestedBlocks (Tree.empty 0)).CanAdopt 3 0) ∧
    ∃ t', (LinkEdit.replaceChild 3 1 0).perform (run nestedBlocks (Tree.empty 0)) =
        (.ok true, t') ∧
      t'.parent? 1 = none ∧ t'.childrenOf 1 = [] := by
  have hOld : 1 ∈ (run nestedBlocks (Tree.empty 0)).childrenOf 3 := by decide +kernel
  have hCan : (run nestedBlocks (Tree.empty 0)).CanAdopt 3 0 :=
    .of_topmost (by decide +kernel) (by decide +kernel) (by decide) (by decide +kernel)
  obtain ⟨t', hOk, hReplaced⟩ := (replaced_run 0 nestedBlocks rfl hOld).1 0 hCan (by decide)
  obtain ⟨before, after, -, hMoved⟩ := hReplaced.rearranged
  refine ⟨⟨hOld, hCan⟩, t', hOk, ?_, ?_⟩
  · rw [hReplaced.parent?_eq]
    decide +kernel
  · rw [hMoved.left 1 (by decide) (by decide +kernel)]
    decide +kernel

end ChildEdit

end SemanticCore
