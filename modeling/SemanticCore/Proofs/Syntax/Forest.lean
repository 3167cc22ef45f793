import Mathlib.Data.List.Nodup
import SemanticCore.Proofs.Syntax.ChildEdit

/-!
# Every tree is a forest

What `Tree.IsForest` says of a tree, it says in terms of the nodes themselves: their lists of
children, their parent links and the functions that walk up. It holds of every tree that is made
from an empty one by building nodes and editing children (`ChildEdit.isForest_run`).
-/

namespace SemanticCore

namespace Tree

def empty (generation : Nat) : Tree := { pool := { generation } }

/-- The links of a tree describe a forest, in which every way up ends. -/
structure IsForest (t : Tree) : Prop where
  /-- A node is found under its handle. -/
  get?_id : ∀ n ∈ t.nodes, t.get? n.id = some n
  /-- Over all lists of children together, a handle occurs at most once. -/
  nodup_children : (t.nodes.flatMap (·.children)).Nodup
  /-- A node is among the children of another exactly when that one is its parent. -/
  mem_children_iff : ∀ p c P C, t.get? p = some P → t.get? c = some C →
    (c ∈ P.children ↔ C.parent = some p)
  /-- Every link leads to a node. -/
  links_resolve : ∀ n ∈ t.nodes, (∀ c ∈ n.children, (t.get? c).isSome) ∧
    ∀ p, n.parent = some p → (t.get? p).isSome
  /-- No node is above itself. -/
  acyclic : ∀ id, ¬ t.Ancestor id id
  /-- The way up from a node ends, and the walks up see all of it. -/
  walks_end : ∀ id n, t.get? id = some n → ∃ ns, t.ParentChain n.parent ns ∧
    t.ancestors id = .ok ns ∧ t.depth id = .ok ns.length ∧ t.root id = .ok (ns.getLast?.getD n)

variable {t : Tree} {id : NodeId} {n : Node} {ns : List Node}

theorem wellLinked_empty (generation : Nat) : (empty generation).WellLinked := by
  have hGet : ∀ k, (empty generation).get? k = none := by
    intro k
    cases h : (empty generation).get? k with
    | none => rfl
    | some n =>
      obtain ⟨i, -, -, hItem⟩ := Pool.get?_eq_some_iff.mp h
      simp [empty] at hItem
  have hParent : (empty generation).parent? = fun _ => none := by
    funext k
    rw [parent?, hGet]
    rfl
  have hChildren : (empty generation).childrenOf = fun _ => [] := by
    funext k
    rw [childrenOf, hGet]
    rfl
  refine ⟨⟨fun h => ?_, Nat.zero_le _⟩, fun k n h => ?_,
    by rw [hParent, hChildren]; exact LinkForest.empty⟩
  · rw [hGet] at h
    cases h
  · rw [hGet] at h
    cases h

/-- A handle in the lists of two nodes would have two parents. -/
theorem Numbered.nodup_flatMap (h : t.Numbered) {list : Node → List NodeId}
    (hParent : ∀ n ∈ t.nodes, ∀ c ∈ list n, t.parent? c = some n.id)
    (hNodup : ∀ n ∈ t.nodes, (list n).Nodup) : (t.nodes.flatMap list).Nodup := by
  rw [List.nodup_flatMap, List.pairwise_iff_getElem]
  refine ⟨hNodup, fun i j hi hj hij c hci hcj => ?_⟩
  have hId := Option.some.inj ((hParent _ (List.getElem_mem hi) c hci).symm.trans
    (hParent _ (List.getElem_mem hj) c hcj))
  rw [h.id_of_get? (h.get?_handle hi), h.id_of_get? (h.get?_handle hj)] at hId
  exact Nat.ne_of_lt hij (Pool.handle_injective hId)

namespace WellLinked

theorem nodup_children (h : t.WellLinked) : (t.nodes.flatMap (·.children)).Nodup := by
  refine h.numbered.nodup_flatMap (fun n hn c hc => ?_) fun n hn => ?_
  · rw [← childrenOf_of_get? (h.numbered.get?_id hn)] at hc
    exact (h.forest.mem_children_iff _ c).mp hc
  · rw [← childrenOf_of_get? (h.numbered.get?_id hn)]
    exact h.forest.nodup_children _

theorem depth_eq (hAncestors : t.ancestors id = .ok ns) : t.depth id = .ok ns.length := by
  rw [depth, hAncestors]
  rfl

theorem root_eq (hGet : t.get? id = some n) (hAncestors : t.ancestors id = .ok ns) :
    t.root id = .ok (ns.getLast?.getD n) := by
  cases hLast : ns.getLast? with
  | none =>
    simp only [root, hAncestors, bind, Except.bind, hLast]
    exact node_of_get? hGet
  | some m =>
    simp only [root, hAncestors, bind, Except.bind, hLast]
    rfl

theorem isForest (h : t.WellLinked) : t.IsForest where
  get?_id _ hn := h.numbered.get?_id hn
  nodup_children := h.nodup_children
  mem_children_iff p c P C hP hC := by
    rw [← childrenOf_of_get? hP, ← parent?_of_get? hC]
    exact h.forest.mem_children_iff p c
  links_resolve n hn := by
    have hGet := h.numbered.get?_id hn
    refine ⟨fun c hc => ?_, fun p hp => ?_⟩
    · rw [← childrenOf_of_get? hGet] at hc
      exact h.resolve.isSome_of_mem hc
    · rw [← parent?_of_get? hGet] at hp
      exact h.resolve.isSome_of_parent? hp
  acyclic := h.forest.grounded.not_ancestor_self
  walks_end id n hGet := by
    obtain ⟨ns, hChain, hAncestors⟩ := h.rooted.exists_chain hGet
    exact ⟨ns, hChain, hAncestors, depth_eq hAncestors, root_eq hGet hAncestors⟩

end WellLinked

end Tree

/-- Whatever is built in an empty tree, and however the children are edited, also with handles that
do not resolve and by edits that are refused: the links describe a forest. -/
theorem ChildEdit.isForest_run (generation : Nat) (edits : List ChildEdit) :
    (ChildEdit.run edits (Tree.empty generation)).IsForest :=
  (ChildEdit.wellLinked_run (Tree.wellLinked_empty generation) edits).isForest

end SemanticCore
