import Mathlib.Algebra.BigOperators.Group.Finset.Basic
import Mathlib.Data.Fintype.Basic
import Mathlib.Data.Set.Card
import SemanticCore.Proofs.Syntax.EditEffect
import SemanticCore.Proofs.Syntax.VisitOrder

/-!
# What a subtree holds

The nodes of a subtree have one order in which they are listed: a node stands before what is below
it, and what is below a child before what is below a later one (`Tree.Listed`). All questions about
a subtree are answered from this list, those that visit all of it and the search that goes down by
itself and ends at the first node that fits.

* `Tree.Linked.listed`: the list is that of the nodes which a visit enters.
* `Tree.Linked.findWithin_eq`: the search finds the first node of the list that fits.
* `Tree.QueriesAgree`: what the queries answer; `ChildEdit.queriesAgree_run`: in every tree that is
  built.
-/

namespace SemanticCore

/-! ## Kinds -/

theorem NodeKind.mem_all (kind : NodeKind) : kind ∈ NodeKind.all := by
  have hPlace : NodeKind.all[kind.ctorIdx]? = some kind := by cases kind <;> rfl
  exact List.mem_of_getElem? hPlace

instance : Fintype NodeKind := Fintype.ofList NodeKind.all NodeKind.mem_all

/-- Every node is of one kind. -/
theorem NodeKind.sum_length_filter (ns : List Node) :
    ∑ kind, (ns.filter (·.kind == kind)).length = ns.length := by
  induction ns with
  | nil => simp
  | cons n ns ih =>
    have hFirst : ∀ kind, ((n :: ns).filter (·.kind == kind)).length =
        (if n.kind = kind then 1 else 0) + (ns.filter (·.kind == kind)).length := by
      intro kind
      by_cases hKind : n.kind = kind
      · rw [List.filter_cons_of_pos (by simpa using hKind), if_pos hKind, List.length_cons,
          Nat.add_comm]
      · rw [List.filter_cons_of_neg (by simpa using hKind), if_neg hKind, Nat.zero_add]
    rw [Finset.sum_congr rfl fun kind _ => hFirst kind, Finset.sum_add_distrib, ih,
      Finset.sum_ite_eq, if_pos (Finset.mem_univ _), List.length_cons, Nat.add_comm]

/-! ## The list of a subtree -/

namespace VisitEvent

/-- The node that is entered, if one is. -/
def entered? : VisitEvent → Option Node
  | enter n => some n
  | leave _ => none

theorem entered?_eq_some_iff {e : VisitEvent} {n : Node} : e.entered? = some n ↔ e = enter n := by
  cases e <;> simp [entered?]

theorem run_replay_recorder (descend : Node → Bool) (es : List VisitEvent) (seen : List Node) :
    (replay (Tree.recorder descend) es).run seen = .ok ((), seen ++ es.filterMap entered?) := by
  induction es generalizing seen with
  | nil =>
    rw [List.filterMap_nil, List.append_nil]
    rfl
  | cons e es ih =>
    rw [replay, StateT.run_bind]
    cases e with
    | enter n =>
      have hFire : (fire (Tree.recorder descend) (enter n)).run seen = .ok ((), seen ++ [n]) := rfl
      rw [hFire]
      exact (ih (seen ++ [n])).trans (by rw [List.append_assoc]; rfl)
    | leave n => exact ih seen

theorem follows_recorder (descend : Node → Bool) :
    (Tree.recorder descend).Follows descend fun _ => True where
  enter n s b s' _ hRun := by
    cases hRun
    exact ⟨rfl, trivial⟩
  leave _ _ _ _ _ := trivial

end VisitEvent

namespace Tree

/-- The nodes of a subtree, each before those below it. -/
inductive Listed (t : Tree) : NodeId → List Node → Prop
  | node {id : NodeId} {n : Node} {below : NodeId → List Node} (hGet : t.get? id = some n)
      (hBelow : ∀ c ∈ n.children, Listed t c (below c)) :
      Listed t id (n :: n.children.flatMap below)

/-- The nodes that are entered in a visit that descends into all of them. -/
def listing (t : Tree) (root : NodeId) : List Node :=
  (t.events (fun _ => true) root).filterMap VisitEvent.entered?

variable {t : Tree} {strict : Prop} {root id : NodeId} {n r : Node} {ns : List Node}

theorem mem_listing_iff : n ∈ t.listing root ↔ .enter n ∈ t.events (fun _ => true) root := by
  simp only [listing, List.mem_filterMap, VisitEvent.entered?_eq_some_iff]
  exact ⟨fun ⟨_, he, hEq⟩ => hEq ▸ he, fun h => ⟨_, h, rfl⟩⟩

theorem firstOf_eq {search : NodeId → Except SyntaxError (Option Node)}
    {found : NodeId → Option Node} {ids : List NodeId}
    (hSearch : ∀ id ∈ ids, search id = .ok (found id)) :
    firstOf search ids = .ok (ids.findSome? found) := by
  induction ids with
  | nil => rfl
  | cons id ids ih =>
    rw [firstOf, hSearch id List.mem_cons_self, List.findSome?_cons]
    cases found id with
    | some n => rfl
    | none => exact ih fun k hk => hSearch k (List.mem_cons_of_mem _ hk)

namespace Linked

theorem listing_eq (h : t.Linked strict) (hGet : t.get? id = some n) :
    t.listing id = n :: n.children.flatMap t.listing := by
  rw [listing, h.events_eq hGet, eventsBelow, if_pos rfl, List.filterMap_cons,
    List.filterMap_append, List.filterMap_flatMap]
  exact congrArg (n :: ·) (List.append_nil _)

theorem listed (h : t.Linked strict) (hRoot : (t.get? root).isSome) :
    t.Listed root (t.listing root) := by
  refine h.descend (motive := fun _ id => (t.get? id).isSome → t.Listed id (t.listing id)) ?_
    root hRoot
  intro _ id ih hId
  obtain ⟨n, hGet⟩ := Option.isSome_iff_exists.mp hId
  rw [h.listing_eq hGet]
  refine .node hGet fun c hc => ?_
  rw [← childrenOf_of_get? hGet] at hc
  exact ih c hc (h.resolve.isSome_of_mem hc)

theorem nodup_listing (h : t.Linked strict) (root : NodeId) : (t.listing root).Nodup := by
  refine (h.nodup_events root).filterMap fun e e' n he he' => ?_
  rw [VisitEvent.entered?_eq_some_iff.mp he, VisitEvent.entered?_eq_some_iff.mp he']

/-! ## Queries -/

theorem walk_eq (h : t.Linked strict) (hRoot : t.get? root = some r) :
    t.walk root (fun _ => true) = .ok (t.listing root) := by
  rw [walk, h.visit_eq (VisitEvent.follows_recorder _), node_of_get? hRoot, ok_bind,
    VisitEvent.run_replay_recorder]
  rfl

/-- The search looks at a node first and then below its children in turn, which is the order of the
list. -/
theorem findWithin_eq (h : t.Linked strict) (kind : NodeKind) (hRoot : (t.get? root).isSome) :
    t.findWithin kind t.levels root = .ok ((t.listing root).find? (·.kind == kind)) := by
  refine h.descend (motive := fun levels id => (t.get? id).isSome →
    t.findWithin kind levels id = .ok ((t.listing id).find? (·.kind == kind))) ?_ root hRoot
  intro levels id ih hId
  obtain ⟨n, hGet⟩ := Option.isSome_iff_exists.mp hId
  rw [findWithin, node_of_get? hGet, ok_bind, h.listing_eq hGet]
  by_cases hKind : n.kind = kind
  · rw [if_pos hKind, List.find?_cons_of_pos (by simpa using hKind)]
    rfl
  · rw [if_neg hKind, List.find?_cons_of_neg (by simpa using hKind), List.find?_flatMap]
    refine firstOf_eq fun c hc => ?_
    rw [← childrenOf_of_get? hGet] at hc
    exact ih c hc (h.resolve.isSome_of_mem hc)

end Linked

/-- What the queries about a subtree answer, when these are its nodes in order. -/
structure QueriesAgree (t : Tree) (root : Node) (ns : List Node) : Prop where
  listed : t.Listed root.id ns
  collect : ∀ kind, t.collect root.id kind = .ok (ns.filter (·.kind == kind))
  find : ∀ kind, t.find? root.id kind = .ok (ns.filter (·.kind == kind)).head?
  count : t.count root.id = .ok (∑ kind, (ns.filter (·.kind == kind)).length)
  /-- The root is counted, and every node with the root among its ancestors. -/
  count_below : t.count root.id = .ok {x | x ∈ t.nodes ∧
    (x = root ∨ ∃ above, t.ancestors x.id = .ok above ∧ root ∈ above)}.ncard

namespace Linked

theorem count_eq (h : t.Linked strict) (hRoot : t.get? root = some r) :
    t.count root = .ok (t.listing root).length := by
  rw [t.count_eq root, h.walk_eq hRoot]
  rfl

/-- What is listed is the root, and all nodes that have it among their ancestors. -/
theorem mem_listing_iff_ancestors (h : t.WellLinked) (hRoot : r ∈ t.nodes) :
    n ∈ t.listing r.id ↔ n ∈ t.nodes ∧
      (n = r ∨ ∃ above, t.ancestors n.id = .ok above ∧ r ∈ above) := by
  rw [mem_listing_iff, h.enter_mem_iff]
  constructor
  · rintro ⟨hn, hEq | hAbove, -⟩
    · have hSame := (h.numbered.get?_id hn).symm.trans (hEq ▸ h.numbered.get?_id hRoot)
      exact ⟨hn, .inl (Option.some.inj hSame)⟩
    · obtain ⟨above, hAncestors, hMem⟩ := h.exists_ancestors_mem hn
      exact ⟨hn, .inr ⟨above, hAncestors, (hMem r hRoot).mpr hAbove⟩⟩
  · rintro ⟨hn, rfl | ⟨above, hAncestors, hr⟩⟩
    · exact ⟨hn, .inl rfl, fun _ _ _ _ => rfl⟩
    · obtain ⟨above', hAncestors', hMem⟩ := h.exists_ancestors_mem hn
      obtain rfl := Except.ok.inj (hAncestors.symm.trans hAncestors')
      exact ⟨hn, .inr ((hMem r hRoot).mp hr), fun _ _ _ _ => rfl⟩

theorem queriesAgree (h : t.WellLinked) (hRoot : r ∈ t.nodes) :
    t.QueriesAgree r (t.listing r.id) := by
  have hGet := h.numbered.get?_id hRoot
  have hSome : (t.get? r.id).isSome := Option.isSome_of_eq_some hGet
  have hCount := h.count_eq hGet
  refine ⟨h.listed hSome, fun kind => ?_, fun kind => ?_, ?_, ?_⟩
  · rw [t.collect_eq r.id kind, h.walk_eq hGet]
    rfl
  · rw [find?, h.findWithin_eq kind hSome, List.head?_filter]
  · rw [hCount, NodeKind.sum_length_filter]
  · have hBelow : {x | x ∈ t.nodes ∧ (x = r ∨ ∃ above, t.ancestors x.id = .ok above ∧ r ∈ above)} =
        ((t.listing r.id).toFinset : Set Node) := by
      ext x
      rw [List.coe_toFinset]
      exact (h.mem_listing_iff_ancestors hRoot).symm
    rw [hCount, hBelow, Set.ncard_coe_finset, List.toFinset_card_of_nodup (h.nodup_listing r.id)]

end Linked

end Tree

namespace ChildEdit

/-- Whatever is built in an empty tree, and however the children are edited: the queries about the
nodes below any node agree. -/
theorem queriesAgree_run (generation : Nat) (edits : List ChildEdit) (root : Node)
    (hRoot : root ∈ (run edits (Tree.empty generation)).nodes) :
    ∃ ns, (run edits (Tree.empty generation)).QueriesAgree root ns :=
  ⟨_, (wellLinked_run (Tree.wellLinked_empty generation) edits).queriesAgree hRoot⟩

/-- The blocks below the last one are found in it, also the one inside the first of them. -/
theorem queriesAgree_run_nested :
    ∃ root ∈ (run nestedBlocks (Tree.empty 0)).nodes, ∃ ns,
      (run nestedBlocks (Tree.empty 0)).QueriesAgree root ns ∧
        (ns.filter (·.kind == .blockStmt)).map (·.id) = [3, 1, 0, 2] := by
  have h := wellLinked_run (Tree.wellLinked_empty 0) nestedBlocks
  have hSome : ((run nestedBlocks (Tree.empty 0)).get? 3).isSome := by decide +kernel
  obtain ⟨root, hRoot, hId⟩ := h.exists_mem_nodes hSome
  have hBlocks : ((run nestedBlocks (Tree.empty 0)).collect 3 .blockStmt).map (·.map (·.id)) =
      .ok [3, 1, 0, 2] := by
    decide +kernel
  obtain ⟨ns, hAgree⟩ := queriesAgree_run 0 nestedBlocks root hRoot
  have hFound := hAgree.collect .blockStmt
  rw [hId] at hFound
  rw [hFound] at hBlocks
  exact ⟨root, hRoot, ns, hAgree, Except.ok.inj hBlocks⟩

end ChildEdit

end SemanticCore
