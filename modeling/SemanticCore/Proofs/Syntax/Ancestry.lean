import Mathlib.Data.List.Perm.Subperm
import SemanticCore.Proofs.Syntax.TreeLinks

/-!
# The way up from a node

A tree is `Tree.Rooted` when every node has the handle under which it is found and every chain of
parents ends, and `Tree.WellLinked` when the lists of children agree with that. The search for
ancestors stops after as many nodes as the tree has. In a rooted tree this is no restriction: the
nodes that one meets on the way up are pairwise different, so the way ends at a node without a
parent before the limit is reached.

* `Tree.ParentChain`: the nodes on the way up, all of them.
* `Tree.Rooted.exists_chain`: there is such a way from every node, and the ancestors computed
  are the nodes on it.
* `Tree.ParentChain.mem_iff`: a node is on the way up exactly when it is above.
-/

namespace SemanticCore.Tree

def Ancestor (t : Tree) (a b : NodeId) : Prop := ParentMap.Ancestor t.parent? a b

/-- The nodes that one meets on the way up that begins with a link, up to a node without a
parent. -/
inductive ParentChain (t : Tree) : Option NodeId → List Node → Prop
  | top : ParentChain t none []
  | link {id : NodeId} {n : Node} {ns : List Node} (hGet : t.get? id = some n)
      (rest : ParentChain t n.parent ns) : ParentChain t (some id) (n :: ns)

/-- Every node has the handle under which it is found, and every place of the pool has one. -/
structure Numbered (t : Tree) : Prop where
  id_of_get? : ∀ {k n}, t.get? k = some n → n.id = k
  size_le : t.pool.items.size ≤ Handle.span

/-- The parent link and the children of every node lead to nodes. -/
def LinksResolve (t : Tree) : Prop :=
  ∀ ⦃id n⦄, t.get? id = some n → ∀ k, n.parent = some k ∨ k ∈ n.children → (t.get? k).isSome

/-- All links lead to nodes, and the way up from every node ends. -/
structure Rooted (t : Tree) : Prop where
  numbered : t.Numbered
  resolve : t.LinksResolve
  grounded : ParentMap.Grounded t.parent?

/-- The lists of children form a forest. In a strict one every node with a parent is one of its
children. -/
structure Linked (strict : Prop) (t : Tree) : Prop where
  numbered : t.Numbered
  resolve : t.LinksResolve
  forest : LinkForest strict t.parent? t.childrenOf

/-- The links of a tree form a forest. -/
abbrev WellLinked (t : Tree) : Prop := t.Linked True

variable {t : Tree} {id a : NodeId} {n : Node} {link : Option NodeId} {ns : List Node}

namespace Numbered

theorem modify (h : t.Numbered) {f : Node → Node} (hf : ∀ n, (f n).id = n.id) :
    (t.modify id f).Numbered where
  id_of_get? := by
    intro k m hGet
    rw [get?_modify] at hGet
    split at hGet
    · obtain ⟨n, hn, rfl⟩ := Option.map_eq_some_iff.mp hGet
      exact (hf n).trans (h.id_of_get? hn)
    · exact h.id_of_get? hGet
  size_le := (Pool.size_modify f).trans_le h.size_le

theorem setParent (h : t.Numbered) : (t.setParent id link).Numbered := h.modify fun _ => rfl

theorem setChildren (h : t.Numbered) {f : List NodeId → List NodeId} :
    (t.setChildren id f).Numbered :=
  h.modify fun _ => rfl

theorem get?_handle (h : t.Numbered) {i : Nat} (hi : i < t.nodes.length) :
    t.get? (t.pool.handle i) = some t.nodes[i] := by
  have hSize : i < t.pool.items.size := by simpa [nodes, Pool.values] using hi
  rw [get?, Pool.get?_handle (hSize.trans_le h.size_le)]
  simp [nodes, Pool.values, hSize]

/-- A node is found under its handle. -/
theorem get?_id (h : t.Numbered) (hn : n ∈ t.nodes) : t.get? n.id = some n := by
  obtain ⟨i, hi, rfl⟩ := List.mem_iff_getElem.mp hn
  have hGet := h.get?_handle hi
  rw [h.id_of_get? hGet, hGet]

end Numbered

namespace LinksResolve

variable {c p : NodeId}

theorem isSome_of_parent? (h : t.LinksResolve) (hp : t.parent? c = some p) :
    (t.get? p).isSome := by
  obtain ⟨n, hGet, hParent⟩ := Option.bind_eq_some_iff.mp hp
  exact h hGet p (Or.inl hParent)

theorem isSome_of_mem (h : t.LinksResolve) (hc : c ∈ t.childrenOf p) : (t.get? c).isSome := by
  obtain ⟨n, hGet⟩ := Option.isSome_iff_exists.mp (isSome_of_mem_childrenOf hc)
  rw [childrenOf_of_get? hGet] at hc
  exact h hGet c (Or.inr hc)

/-- Links that a change adds have to lead to nodes. -/
theorem modify (h : t.LinksResolve) {f : Node → Node}
    (hParent : ∀ n k, (f n).parent = some k → n.parent = some k ∨ (t.get? k).isSome)
    (hChildren : ∀ n, ∀ k ∈ (f n).children, k ∈ n.children ∨ (t.get? k).isSome) :
    (t.modify id f).LinksResolve := by
  intro i m hm k hk
  rw [isSome_get?_modify]
  rw [get?_modify] at hm
  split at hm
  · obtain ⟨n, hn, rfl⟩ := Option.map_eq_some_iff.mp hm
    have hOld : (n.parent = some k ∨ k ∈ n.children) ∨ (t.get? k).isSome :=
      hk.elim (fun hk => (hParent n k hk).imp_left Or.inl)
        fun hk => (hChildren n k hk).imp_left Or.inr
    exact hOld.elim (h hn k) fun hSome => hSome
  · exact h hm k hk

theorem setParent (h : t.LinksResolve) (hLink : ∀ p, link = some p → (t.get? p).isSome) :
    (t.setParent id link).LinksResolve :=
  h.modify (fun _ p hp => Or.inr (hLink p hp)) fun _ _ hk => Or.inl hk

theorem setChildren (h : t.LinksResolve) {f : List NodeId → List NodeId}
    (hf : ∀ l, ∀ k ∈ f l, k ∈ l ∨ (t.get? k).isSome) : (t.setChildren id f).LinksResolve :=
  h.modify (fun _ _ hp => Or.inl hp) fun n => hf n.children

end LinksResolve

theorem Linked.rooted {strict : Prop} (h : t.Linked strict) : t.Rooted :=
  ⟨h.numbered, h.resolve, h.forest.grounded⟩

theorem Linked.weaken {strict : Prop} (h : t.Linked strict) : t.Linked False :=
  ⟨h.numbered, h.resolve, { h.forest with mem_of_parent := False.elim }⟩

namespace ParentChain

/-- The nodes on the way up are those that the link names and those above. -/
theorem mem_iff (hT : t.Numbered) (h : t.ParentChain link ns) :
    (∃ n ∈ ns, n.id = a) ↔ ∃ p, link = some p ∧ (a = p ∨ t.Ancestor a p) := by
  induction h with
  | top => simp
  | @link id n ns hGet rest ih =>
    have hUp : t.Ancestor a id ↔ ∃ m ∈ ns, m.id = a := by
      rw [ih, ← parent?_of_get? hGet]
      exact ParentMap.ancestor_iff
    simp [hT.id_of_get? hGet, hUp, eq_comm]

/-- Without a cycle one meets each node once on the way up. -/
theorem nodup (hT : t.Numbered) (hG : ParentMap.Grounded t.parent?) (h : t.ParentChain link ns) :
    (ns.map (·.id)).Nodup := by
  induction h with
  | top => exact List.nodup_nil
  | @link id n ns hGet rest ih =>
    refine List.nodup_cons.mpr ⟨fun hMem => ?_, ih⟩
    obtain ⟨m, hm, hId⟩ := List.mem_map.mp hMem
    have hUp := (rest.mem_iff hT).mp ⟨m, hm, hId.trans (hT.id_of_get? hGet)⟩
    rw [← parent?_of_get? hGet] at hUp
    exact hG.not_ancestor_self id (ParentMap.ancestor_iff.mpr hUp)

theorem get?_id_of_mem (hT : t.Numbered) (h : t.ParentChain link ns) :
    ∀ n ∈ ns, t.get? n.id = some n := by
  induction h with
  | top => simp
  | @link id n ns hGet rest ih =>
    intro m hm
    rcases List.mem_cons.mp hm with rfl | hm
    · rw [hT.id_of_get? hGet, hGet]
    · exact ih m hm

/-- A chain of pairwise different nodes is no longer than the tree is large. -/
theorem length_le (hT : t.Numbered) (hG : ParentMap.Grounded t.parent?)
    (h : t.ParentChain link ns) : ns.length ≤ t.size := by
  have hSub : ns.map (·.id) ⊆ (List.range t.size).map t.pool.handle := by
    intro k hk
    obtain ⟨n, hn, rfl⟩ := List.mem_map.mp hk
    obtain ⟨i, -, hEq, hItem⟩ := Pool.get?_eq_some_iff.mp (h.get?_id_of_mem hT n hn)
    obtain ⟨hi, -⟩ := Array.getElem?_eq_some_iff.mp hItem
    exact hEq ▸ List.mem_map_of_mem (List.mem_range.mpr hi)
  have hLength := ((h.nodup hT hG).subperm hSub).length_le
  rwa [List.length_map, List.length_map, List.length_range] at hLength

theorem chain_eq (h : t.ParentChain link ns) :
    ∀ limit, ns.length ≤ limit → t.chain limit link = .ok ns := by
  induction h with
  | top =>
    intro limit _
    cases limit <;> rfl
  | @link id n ns hGet rest ih =>
    intro limit hLimit
    cases limit with
    | zero => simp at hLimit
    | succ limit =>
      rw [chain, node_of_get? hGet]
      change t.chain limit n.parent >>= _ = _
      rw [ih limit (Nat.le_of_succ_le_succ hLimit)]
      rfl

end ParentChain

namespace Rooted

theorem exists_parentChain (h : t.Rooted) (id : NodeId) :
    ∃ ns, t.ParentChain (t.parent? id) ns := by
  induction id using h.grounded.induction with
  | _ id ih =>
    cases hp : t.parent? id with
    | none => exact ⟨[], .top⟩
    | some p =>
      obtain ⟨n, hGet⟩ := Option.isSome_iff_exists.mp (h.resolve.isSome_of_parent? hp)
      obtain ⟨ns, hChain⟩ := ih p hp
      rw [parent?_of_get? hGet] at hChain
      exact ⟨n :: ns, .link hGet hChain⟩

/-- The ancestors computed are all nodes on the way up. -/
theorem exists_chain (h : t.Rooted) (hGet : t.get? id = some n) :
    ∃ ns, t.ParentChain n.parent ns ∧ t.ancestors id = .ok ns := by
  obtain ⟨ns, hChain⟩ := h.exists_parentChain id
  rw [parent?_of_get? hGet] at hChain
  refine ⟨ns, hChain, ?_⟩
  rw [ancestors, node_of_get? hGet]
  exact hChain.chain_eq _ (hChain.length_le h.numbered h.grounded)

/-- Searching the ancestors of a node for a handle finds it exactly when it is above. -/
theorem exists_ancestors (h : t.Rooted) (hGet : t.get? id = some n) :
    ∃ ns, t.ancestors id = .ok ns ∧ ∀ a, (∃ m ∈ ns, m.id = a) ↔ t.Ancestor a id := by
  obtain ⟨ns, hChain, hAncestors⟩ := h.exists_chain hGet
  refine ⟨ns, hAncestors, fun a => ?_⟩
  rw [hChain.mem_iff h.numbered, ← parent?_of_get? hGet]
  exact ParentMap.ancestor_iff.symm

end Rooted

end SemanticCore.Tree
