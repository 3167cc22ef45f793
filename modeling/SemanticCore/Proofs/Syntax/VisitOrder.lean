import Mathlib.Data.List.Flatten
import SemanticCore.Proofs.Syntax.Forest
import SemanticCore.Proofs.Syntax.VisitEvents

/-!
# The order of a visit

A visit comes to the nodes below its root, except for those that are below a node which it was told
not to descend into. Each node that it comes to is entered once and left once. What happens in
between happens to the nodes below, and of two nodes in different branches the one whose branch
stands first is left before the other is entered.

* `Tree.Reaches`: the nodes that a visit comes to; `Tree.Linked.reaches_iff`: these in terms of the
  nodes above.
* `Tree.Linked.nodup_events`, `Tree.Linked.nested_sublist`, `Tree.Linked.apart_sublist`: no event
  happens twice, and in which order the events of two nodes happen.
* `Tree.VisitsInOrder`: how a visit goes.
* `ChildEdit.visitsInOrder_run`: visits go so in every tree that is built.
-/

namespace SemanticCore

/-! ## Pairs in a list -/

section Pairs

variable {α : Type} {a b : α} {l : List α}

theorem pair_sublist_or (ha : a ∈ l) (hb : b ∈ l) (hNe : a ≠ b) :
    [a, b].Sublist l ∨ [b, a].Sublist l := by
  obtain ⟨before, after, rfl⟩ := List.append_of_mem ha
  rcases List.mem_append.mp hb with hb | hb
  · exact .inr
      ((List.singleton_sublist.mpr hb).append (List.singleton_sublist.mpr List.mem_cons_self))
  · have hAfter : b ∈ after := (List.mem_cons.mp hb).resolve_left hNe.symm
    exact .inl
      (((List.singleton_sublist.mpr hAfter).cons_cons a).trans (List.sublist_append_right _ _))

/-- What stands once in a list stands in one order. -/
theorem not_pair_sublist (h : l.Nodup) (hab : [a, b].Sublist l) : ¬ [b, a].Sublist l := by
  induction l with
  | nil => cases hab
  | cons c l ih =>
    obtain ⟨hNot, hRest⟩ := List.nodup_cons.mp h
    intro hba
    cases hab with
    | cons _ hab =>
      cases hba with
      | cons _ hba => exact ih hRest hab hba
      | cons_cons _ _ => exact hNot (hab.subset (by simp))
    | cons_cons _ hb =>
      cases hba with
      | cons _ hba => exact hNot (hba.subset (by simp))
      | cons_cons _ _ => exact hNot (List.singleton_sublist.mp hb)

end Pairs

namespace Tree

def AtOrAbove (t : Tree) (a x : NodeId) : Prop := ParentMap.AtOrAbove t.parent? a x

/-- A visit goes on from a node to one of its children. -/
def GoesOn (t : Tree) (descend : Node → Bool) (p c : NodeId) : Prop :=
  c ∈ t.childrenOf p ∧ ∃ n, t.get? p = some n ∧ descend n = true

/-- A visit that begins at a node comes to another. -/
def Reaches (t : Tree) (descend : Node → Bool) (root x : NodeId) : Prop :=
  Relation.ReflTransGen (t.GoesOn descend) root x

variable {t : Tree} {strict : Prop} {descend : Node → Bool} {root id x y : NodeId} {n : Node}
  {e : VisitEvent}

namespace Linked

/-! ## Nodes that are reached -/

theorem parent_of_goesOn (h : t.Linked strict) (hStep : t.GoesOn descend x y) :
    t.parent? y = some x :=
  h.forest.parent_of_mem hStep.1

theorem atOrAbove_of_reaches (h : t.Linked strict) (hReaches : t.Reaches descend root x) :
    t.AtOrAbove root x := by
  induction hReaches with
  | refl => exact .inl rfl
  | tail _ hStep ih => exact ih.trans (.inr (ParentMap.ancestor_of_edge (h.parent_of_goesOn hStep)))

end Linked

/-- A visit comes to the nodes below its root that are not below one into which it does not
descend. -/
theorem Linked.reaches_iff (h : t.WellLinked) :
    t.Reaches descend root x ↔ t.AtOrAbove root x ∧
      ∀ a n, t.AtOrAbove root a → t.Ancestor a x → t.get? a = some n → descend n = true := by
  induction x using h.forest.grounded.induction with
  | _ x ih =>
    constructor
    · intro hReaches
      refine ⟨h.atOrAbove_of_reaches hReaches, fun a n hRoot hAbove hGet => ?_⟩
      rcases hReaches.cases_tail with rfl | ⟨p, hUp, hStep⟩
      · exact absurd hRoot (h.forest.grounded.not_atOrAbove hAbove)
      · obtain ⟨q, hq, hAbove⟩ := ParentMap.ancestor_iff_atOrAbove.mp hAbove
        have hp := h.parent_of_goesOn hStep
        obtain rfl := Option.some.inj (hp.symm.trans hq)
        rcases hAbove with rfl | hAbove
        · obtain ⟨-, m, hm, hDescend⟩ := hStep
          exact Option.some.inj (hGet.symm.trans hm) ▸ hDescend
        · exact ((ih p hp).mp hUp).2 a n hRoot hAbove hGet
    · rintro ⟨hRoot, hDescend⟩
      rcases hRoot with rfl | hRoot
      · exact .refl
      · obtain ⟨p, hp, hRoot⟩ := ParentMap.ancestor_iff_atOrAbove.mp hRoot
        have hUp : t.Ancestor p x := ParentMap.ancestor_of_edge hp
        obtain ⟨m, hm⟩ := Option.isSome_iff_exists.mp (h.resolve.isSome_of_parent? hp)
        have hReaches : t.Reaches descend root p :=
          (ih p hp).mpr ⟨hRoot, fun a n ha hAbove => hDescend a n ha (hAbove.trans hUp)⟩
        exact hReaches.tail
          ⟨(h.forest.mem_children_iff p x).mpr hp, m, hm, hDescend p m hRoot hUp hm⟩

namespace Linked

/-! ## Events -/

theorem mem_eventsBelow (hGet : t.get? root = some n) :
    e ∈ t.eventsBelow descend n ↔ ∃ c, t.GoesOn descend root c ∧ e ∈ t.events descend c := by
  have hDescend : (∃ m, t.get? root = some m ∧ descend m = true) ↔ descend n = true := by
    rw [hGet]
    simp
  simp only [GoesOn, hDescend, eventsBelow, childrenOf_of_get? hGet]
  by_cases hn : descend n = true <;> simp [hn]

/-- The nodes that are entered and left are those that the visit comes to. -/
theorem mem_events (h : t.Linked strict) (root : NodeId) :
    e ∈ t.events descend root ↔
      t.get? e.node.id = some e.node ∧ t.Reaches descend root e.node.id := by
  refine h.descend (motive := fun _ root => e ∈ t.events descend root ↔
    t.get? e.node.id = some e.node ∧ t.Reaches descend root e.node.id) ?_ root
  intro _ root ih
  cases hGet : t.get? root with
  | none =>
    rw [events_of_none hGet]
    refine ⟨nofun, fun ⟨hNode, hReaches⟩ => ?_⟩
    rcases hReaches.cases_head with rfl | ⟨c, ⟨-, m, hm, -⟩, -⟩
    · rw [hGet] at hNode
      cases hNode
    · rw [hGet] at hm
      cases hm
  | some n =>
    have hId : n.id = root := h.numbered.id_of_get? hGet
    rw [h.events_eq hGet, List.mem_cons, List.mem_append, mem_eventsBelow hGet, List.mem_singleton]
    constructor
    · rintro (rfl | ⟨c, hStep, he⟩ | rfl)
      · exact ⟨hId ▸ hGet, hId ▸ .refl⟩
      · obtain ⟨hNode, hReaches⟩ := (ih c hStep.1).mp he
        exact ⟨hNode, .head hStep hReaches⟩
      · exact ⟨hId ▸ hGet, hId ▸ .refl⟩
    · rintro ⟨hNode, hReaches⟩
      rcases hReaches.cases_head with rfl | ⟨c, hStep, hReaches⟩
      · have hSame : e.node = n := Option.some.inj (hNode.symm.trans hGet)
        cases e with
        | enter m => exact .inl (congrArg VisitEvent.enter hSame)
        | leave m => exact .inr (.inr (congrArg VisitEvent.leave hSame))
      · exact .inr (.inl ⟨c, hStep, (ih c hStep.1).mpr ⟨hNode, hReaches⟩⟩)

/-- Nothing happens twice: the children of a node have no node below them in common, and the node
itself is not below them. -/
theorem nodup_events (h : t.Linked strict) (root : NodeId) : (t.events descend root).Nodup := by
  refine h.descend (motive := fun _ root => (t.events descend root).Nodup) ?_ root
  intro _ root ih
  cases hGet : t.get? root with
  | none =>
    rw [events_of_none hGet]
    exact List.nodup_nil
  | some n =>
    have hAt : ∀ {c e}, c ∈ t.childrenOf root → e ∈ t.events descend c →
        t.AtOrAbove c e.node.id :=
      fun _ he => h.atOrAbove_of_reaches ((h.mem_events _).mp he).2
    have hOther : ∀ e ∈ t.eventsBelow descend n, e.node ≠ n := by
      intro e he hSame
      obtain ⟨c, hStep, he⟩ := (mem_eventsBelow hGet).mp he
      have hBack : t.AtOrAbove c root := by
        have hUp := hAt hStep.1 he
        rwa [hSame, h.numbered.id_of_get? hGet] at hUp
      exact h.forest.grounded.not_atOrAbove
        (ParentMap.ancestor_of_edge (h.parent_of_goesOn hStep)) hBack
    have hBelow : (t.eventsBelow descend n).Nodup := by
      rw [eventsBelow, ← childrenOf_of_get? hGet]
      split
      · refine List.nodup_flatMap.mpr ⟨fun c hc => ih c hc, ?_⟩
        refine (h.forest.nodup_children root).imp_of_mem fun hc hc' hNe => ?_
        intro e he he'
        exact hNe (h.forest.grounded.eq_of_siblings (h.forest.parent_of_mem hc)
          (h.forest.parent_of_mem hc') (hAt hc he) (hAt hc' he'))
      · exact List.nodup_nil
    rw [h.events_eq hGet, List.nodup_cons, List.mem_append, List.mem_singleton]
    refine ⟨?_, hBelow.append (List.nodup_singleton _) ?_⟩
    · rintro (hEnter | hLeave)
      · exact hOther _ hEnter rfl
      · cases hLeave
    · exact List.disjoint_singleton.mpr fun hLeave => hOther _ hLeave rfl

/-! ## The order of events -/

theorem events_of_goesOn (h : t.Linked strict) (hStep : t.GoesOn descend id x) :
    ∃ n, t.get? id = some n ∧ t.events descend id =
      .enter n :: ((t.childrenOf id).flatMap (t.events descend) ++ [.leave n]) := by
  obtain ⟨-, n, hGet, hDescend⟩ := hStep
  exact ⟨n, hGet, by rw [h.events_eq hGet, eventsBelow, if_pos hDescend, childrenOf_of_get? hGet]⟩

theorem events_sublist_children (hStep : t.GoesOn descend id x) :
    (t.events descend x).Sublist ((t.childrenOf id).flatMap (t.events descend)) := by
  have hOne := (List.singleton_sublist.mpr hStep.1).flatMap (t.events descend)
  rwa [List.flatMap_singleton] at hOne

/-- What happens at a node that is reached happens in the same order in the whole visit. -/
theorem events_sublist (h : t.Linked strict) (hReaches : t.Reaches descend root x) :
    (t.events descend x).Sublist (t.events descend root) := by
  induction hReaches using Relation.ReflTransGen.head_induction_on with
  | refl => exact List.Sublist.refl _
  | head hStep _ ih =>
    obtain ⟨n, -, hEvents⟩ := h.events_of_goesOn hStep
    rw [hEvents]
    exact ((ih.trans (events_sublist_children hStep)).trans (List.sublist_append_left _ _)).cons _

variable {m : Node}

theorem enter_leave_sublist (h : t.Linked strict) (hGet : t.get? id = some n) :
    [VisitEvent.enter n, .leave n].Sublist (t.events descend id) := by
  rw [h.events_eq hGet]
  exact (List.sublist_append_right _ _).cons_cons _

/-- A node below another is entered after it and left before it. -/
theorem nested_sublist (h : t.Linked strict) (hx : t.get? x = some n) (hy : t.get? y = some m)
    (hReaches : t.Reaches descend y x) (hNe : x ≠ y) :
    [VisitEvent.enter m, .enter n, .leave n, .leave m].Sublist (t.events descend y) := by
  rcases hReaches.cases_head with rfl | ⟨c, hStep, hReaches⟩
  · exact absurd rfl hNe
  · obtain ⟨m', hGet, hEvents⟩ := h.events_of_goesOn hStep
    obtain rfl := Option.some.inj (hy.symm.trans hGet)
    have hInner := ((h.enter_leave_sublist hx).trans (h.events_sublist hReaches)).trans
      (events_sublist_children hStep)
    rw [hEvents]
    exact (hInner.append (List.Sublist.refl [VisitEvent.leave m])).cons_cons _

/-- What is below a child is left before what is below a later child is entered. -/
theorem apart_sublist (h : t.Linked strict) {p a b : NodeId} (ha : t.GoesOn descend p a)
    (hOrder : [a, b].Sublist (t.childrenOf p)) (hax : t.Reaches descend a x)
    (hby : t.Reaches descend b y) (hx : t.get? x = some n) (hy : t.get? y = some m) :
    [VisitEvent.enter n, .leave n, .enter m, .leave m].Sublist (t.events descend p) := by
  obtain ⟨k, -, hEvents⟩ := h.events_of_goesOn ha
  have hFirst := (h.enter_leave_sublist hx).trans (h.events_sublist hax)
  have hSecond := (h.enter_leave_sublist hy).trans (h.events_sublist hby)
  have hBoth : (t.events descend a ++ t.events descend b).Sublist
      ((t.childrenOf p).flatMap (t.events descend)) := by
    have hPair := hOrder.flatMap (t.events descend)
    rwa [List.flatMap_cons, List.flatMap_singleton] at hPair
  rw [hEvents]
  exact (((hFirst.append hSecond).trans hBoth).trans (List.sublist_append_left _ _)).cons _

/-- Two nodes in different branches are below different children of one node. -/
theorem exists_parting (h : t.Linked strict) (hx : t.Reaches descend root x)
    (hy : t.Reaches descend root y) (hxy : ¬ t.AtOrAbove x y) (hyx : ¬ t.AtOrAbove y x) :
    ∃ p a b, t.Reaches descend root p ∧ a ≠ b ∧ t.GoesOn descend p a ∧ t.GoesOn descend p b ∧
      t.Reaches descend a x ∧ t.Reaches descend b y := by
  induction hx using Relation.ReflTransGen.head_induction_on with
  | refl => exact absurd (h.atOrAbove_of_reaches hy) hxy
  | @head r a hStep hax ih =>
    rcases hy.cases_head with rfl | ⟨b, hStep', hby⟩
    · exact absurd (h.atOrAbove_of_reaches (hax.head hStep)) hyx
    · by_cases hab : a = b
      · obtain ⟨p, a', b', hp, hRest⟩ := ih (hab ▸ hby)
        exact ⟨p, a', b', hp.head hStep, hRest⟩
      · exact ⟨r, a, b, .refl, hab, hStep, hStep', hax, hby⟩

end Linked

/-! ## Visits -/

/-- How a visit goes. No event happens twice. So if some events are found one behind the other in
the sequence, this is the order in which they happen. -/
structure VisitsInOrder (t : Tree) (descend : Node → Bool) (root : NodeId) : Prop where
  /-- A node is entered if it is below the root, and below none that is not descended into. -/
  enter_iff : ∀ x, .enter x ∈ t.events descend root ↔ x ∈ t.nodes ∧ t.AtOrAbove root x.id ∧
    ∀ a ∈ t.nodes, t.AtOrAbove root a.id → t.Ancestor a.id x.id → descend a = true
  leave_iff : ∀ x, .leave x ∈ t.events descend root ↔ .enter x ∈ t.events descend root
  nodup : (t.events descend root).Nodup
  enter_leave : ∀ x, .enter x ∈ t.events descend root →
    [VisitEvent.enter x, .leave x].Sublist (t.events descend root)
  inside_iff : ∀ x y, .enter x ∈ t.events descend root → .enter y ∈ t.events descend root →
    x ≠ y → ([VisitEvent.enter y, .enter x, .leave x, .leave y].Sublist (t.events descend root) ↔
      t.Ancestor y.id x.id)
  /-- Nodes in different branches come one after the other, as do the children at which the branches
  part. -/
  apart : ∀ x y, .enter x ∈ t.events descend root → .enter y ∈ t.events descend root →
    ¬ t.AtOrAbove x.id y.id → ¬ t.AtOrAbove y.id x.id →
    ∃ p a b, .enter p ∈ t.events descend root ∧ t.AtOrAbove a x.id ∧ t.AtOrAbove b y.id ∧
      ([a, b].Sublist p.children ∧
          [VisitEvent.enter x, .leave x, .enter y, .leave y].Sublist (t.events descend root) ∨
        [b, a].Sublist p.children ∧
          [VisitEvent.enter y, .leave y, .enter x, .leave x].Sublist (t.events descend root))
  /-- What is above a node is what the walk up finds. -/
  ancestors : ∀ x ∈ t.nodes, ∃ ns, t.ancestors x.id = .ok ns ∧
    ∀ a ∈ t.nodes, a ∈ ns ↔ t.Ancestor a.id x.id
  visitReadonly : ∀ (σ : Type) (v : Visitor (Visit σ)), v.Follows descend (fun _ => True) → ∀ s,
    t.visit root v s =
      t.node root >>= fun _ => ((VisitEvent.replay v (t.events descend root)).run s).map Prod.snd
  visit : ∀ (σ : Type) (v : Visitor (Visit (Tree × σ))), v.Follows descend (fun s => s.1 = t) →
    ∀ limit, t.levels ≤ limit → ∀ s,
    (traverse (liveSource σ) v limit root).run (t, s) =
      t.node root >>= fun _ => (VisitEvent.replay v (t.events descend root)).run (t, s)
  traced : ∀ n, t.get? root = some n →
    t.visit root (VisitEvent.tracer descend) [] = .ok (t.events descend root)

namespace Linked

theorem mem_nodes_iff (h : t.Linked strict) : n ∈ t.nodes ↔ t.get? n.id = some n := by
  refine ⟨h.numbered.get?_id, fun hGet => ?_⟩
  obtain ⟨i, -, -, hItem⟩ := Pool.get?_eq_some_iff.mp hGet
  exact Array.mem_toList_iff.mpr (Array.mem_of_getElem? hItem)

theorem mem_nodes_of_get? (h : t.Linked strict) (hGet : t.get? id = some n) : n ∈ t.nodes :=
  h.mem_nodes_iff.mpr (h.numbered.id_of_get? hGet ▸ hGet)

theorem exists_mem_nodes (h : t.Linked strict) (hId : (t.get? id).isSome) :
    ∃ n ∈ t.nodes, n.id = id := by
  obtain ⟨n, hGet⟩ := Option.isSome_iff_exists.mp hId
  exact ⟨n, h.mem_nodes_of_get? hGet, h.numbered.id_of_get? hGet⟩

section

variable {n m : Node}

theorem enter_mem_iff (h : t.WellLinked) :
    .enter n ∈ t.events descend root ↔ n ∈ t.nodes ∧ t.AtOrAbove root n.id ∧
      ∀ a ∈ t.nodes, t.AtOrAbove root a.id → t.Ancestor a.id n.id → descend a = true := by
  rw [h.mem_events root, VisitEvent.node, ← h.mem_nodes_iff, h.reaches_iff]
  refine and_congr_right fun _ => and_congr_right fun _ => ?_
  constructor
  · exact fun hDescend a ha hRoot hAbove =>
      hDescend a.id a hRoot hAbove (h.mem_nodes_iff.mp ha)
  · intro hDescend a k hRoot hAbove hGet
    obtain rfl := h.numbered.id_of_get? hGet
    exact hDescend k (h.mem_nodes_iff.mpr hGet) hRoot hAbove

/-- A visit that comes to a node came there from every node between the root and it. -/
theorem reaches_between (h : t.WellLinked) (hReaches : t.Reaches descend root x)
    (hy : t.AtOrAbove root y) (hAbove : t.Ancestor y x) : t.Reaches descend y x :=
  h.reaches_iff.mpr ⟨.inr hAbove, fun a n ha =>
    (h.reaches_iff.mp hReaches).2 a n (hy.trans ha)⟩

/-- Nodes in different branches come one after the other. -/
theorem exists_apart (h : t.Linked strict) (hn : .enter n ∈ t.events descend root)
    (hm : .enter m ∈ t.events descend root) (hnm : ¬ t.AtOrAbove n.id m.id)
    (hmn : ¬ t.AtOrAbove m.id n.id) :
    ∃ p a b, .enter p ∈ t.events descend root ∧ t.AtOrAbove a n.id ∧ t.AtOrAbove b m.id ∧
      ([a, b].Sublist p.children ∧
          [VisitEvent.enter n, .leave n, .enter m, .leave m].Sublist (t.events descend root) ∨
        [b, a].Sublist p.children ∧
          [VisitEvent.enter m, .leave m, .enter n, .leave n].Sublist (t.events descend root)) := by
  obtain ⟨hGet, hReaches⟩ := (h.mem_events root).mp hn
  obtain ⟨hGet', hReaches'⟩ := (h.mem_events root).mp hm
  obtain ⟨p, a, b, hp, hNe, ha, hb, hax, hby⟩ := h.exists_parting hReaches hReaches' hnm hmn
  obtain ⟨k, hk, -⟩ := ha.2
  have hId : k.id = p := h.numbered.id_of_get? hk
  have hEnter : .enter k ∈ t.events descend root := (h.mem_events root).mpr (hId ▸ ⟨hk, hp⟩)
  refine ⟨k, a, b, hEnter, h.atOrAbove_of_reaches hax, h.atOrAbove_of_reaches hby, ?_⟩
  rw [← childrenOf_of_get? hk]
  rcases pair_sublist_or ha.1 hb.1 hNe with hOrder | hOrder
  · exact .inl ⟨hOrder,
      (h.apart_sublist ha hOrder hax hby hGet hGet').trans (h.events_sublist hp)⟩
  · exact .inr ⟨hOrder,
      (h.apart_sublist hb hOrder hby hax hGet' hGet).trans (h.events_sublist hp)⟩

/-- What is below a node that is reached happens inside what happens at that node. -/
theorem inside_sublist (h : t.WellLinked) (hn : .enter n ∈ t.events descend root)
    (hm : .enter m ∈ t.events descend root) (hAbove : t.Ancestor m.id n.id) :
    [VisitEvent.enter m, .enter n, .leave n, .leave m].Sublist (t.events descend root) := by
  obtain ⟨hGet, hReaches⟩ := (h.mem_events root).mp hn
  obtain ⟨hGet', hReaches'⟩ := (h.mem_events root).mp hm
  have hBetween := h.reaches_between hReaches (h.atOrAbove_of_reaches hReaches') hAbove
  have hNe : n.id ≠ m.id := fun hEq =>
    h.forest.grounded.not_atOrAbove hAbove (.inl hEq)
  exact (h.nested_sublist hGet hGet' hBetween hNe).trans (h.events_sublist hReaches')

theorem inside_iff (h : t.WellLinked) (hn : .enter n ∈ t.events descend root)
    (hm : .enter m ∈ t.events descend root) (hNe : n ≠ m) :
    [VisitEvent.enter m, .enter n, .leave n, .leave m].Sublist (t.events descend root) ↔
      t.Ancestor m.id n.id := by
  refine ⟨fun hInside => ?_, h.inside_sublist hn hm⟩
  have hOnce : ∀ {a b}, [a, b].Sublist (t.events descend root) →
      ¬ [b, a].Sublist (t.events descend root) := not_pair_sublist (h.nodup_events root)
  have hId : n.id ≠ m.id := by
    intro hEq
    have hSame := ((h.mem_events root).mp hn).1.symm.trans
      ((congrArg t.get? hEq).trans ((h.mem_events root).mp hm).1)
    exact hNe (Option.some.inj hSame)
  -- any other way for the two nodes to lie turns round two of the four events
  by_contra hNot
  by_cases hBack : t.Ancestor n.id m.id
  · have hTurned := h.inside_sublist hm hn hBack
    exact hOnce (a := .enter m) (b := .enter n) (.trans (by simp) hInside)
      (.trans (by simp) hTurned)
  · obtain ⟨p, a, b, -, -, -, ⟨-, hTurned⟩ | ⟨-, hTurned⟩⟩ :=
      h.exists_apart hn hm (fun hUp => hUp.elim hId hBack) fun hUp => hUp.elim hId.symm hNot
    · exact hOnce (a := .enter m) (b := .leave n) (.trans (by simp) hInside)
        (.trans (by simp) hTurned)
    · exact hOnce (a := .enter n) (b := .leave m) (.trans (by simp) hInside)
        (.trans (by simp) hTurned)

theorem exists_ancestors_mem (h : t.Linked strict) (hn : n ∈ t.nodes) :
    ∃ ns, t.ancestors n.id = .ok ns ∧ ∀ a ∈ t.nodes, a ∈ ns ↔ t.Ancestor a.id n.id := by
  have hGet := h.mem_nodes_iff.mp hn
  obtain ⟨ns, hChain, hAncestors⟩ := h.rooted.exists_chain hGet
  obtain ⟨ns', hAncestors', hAbove⟩ := h.rooted.exists_ancestors hGet
  obtain rfl := Except.ok.inj (hAncestors.symm.trans hAncestors')
  refine ⟨ns, hAncestors, fun a ha => ⟨fun hMem => (hAbove a.id).mp ⟨a, hMem, rfl⟩, fun hUp => ?_⟩⟩
  obtain ⟨m, hm, hId⟩ := (hAbove a.id).mpr hUp
  have hSame := (hChain.get?_id_of_mem h.numbered m hm).symm.trans
    ((congrArg t.get? hId).trans (h.mem_nodes_iff.mp ha))
  exact Option.some.inj hSame ▸ hm

end

theorem visit_eq (h : t.Linked strict) {σ : Type} {v : Visitor (Visit σ)}
    (hv : v.Follows descend fun _ => True) (s : σ) :
    t.visit root v s =
      t.node root >>= fun _ =>
        ((VisitEvent.replay v (t.events descend root)).run s).map Prod.snd := by
  rw [Tree.visit, h.run_traverse (t.reads_source σ) hv (Nat.le_refl _) root trivial]
  cases t.node root with
  | error e => rfl
  | ok n =>
    rw [ok_bind, ok_bind]
    cases (VisitEvent.replay v (t.events descend root)).run s <;> rfl

theorem visitsInOrder (h : t.WellLinked) (descend : Node → Bool) (root : NodeId) :
    t.VisitsInOrder descend root where
  enter_iff _ := h.enter_mem_iff
  leave_iff _ := by rw [h.mem_events root, h.mem_events root]; exact Iff.rfl
  nodup := h.nodup_events root
  enter_leave x hx := by
    obtain ⟨hGet, hReaches⟩ := (h.mem_events root).mp hx
    exact (h.enter_leave_sublist hGet).trans (h.events_sublist hReaches)
  inside_iff _ _ := h.inside_iff
  apart _ _ := h.exists_apart
  ancestors _ := h.exists_ancestors_mem
  visitReadonly _ _ := h.visit_eq
  visit σ v hv limit hLimit s := h.run_traverse (t.reads_liveSource σ) hv hLimit root rfl
  traced n hGet := by
    rw [h.visit_eq (VisitEvent.follows_tracer descend), node_of_get? hGet,
      VisitEvent.run_replay_tracer]
    rfl

end Linked

end Tree

/-- Whatever is built in an empty tree, and however the children are edited: every visit that leaves
the tree as it is goes in this order, from every node, whichever nodes are not descended into. -/
theorem ChildEdit.visitsInOrder_run (generation : Nat) (edits : List ChildEdit)
    (descend : Node → Bool) (root : NodeId) :
    (ChildEdit.run edits (Tree.empty generation)).VisitsInOrder descend root :=
  (ChildEdit.wellLinked_run (Tree.wellLinked_empty generation) edits).visitsInOrder descend root

end SemanticCore
