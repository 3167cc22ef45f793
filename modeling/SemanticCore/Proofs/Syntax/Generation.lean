import SemanticCore.Proofs.Syntax.EditInvariant
import SemanticCore.Proofs.Syntax.Forest

/-!
# The handles of nodes

Edits of nodes and building of nodes leave the generation of a tree as it is, so handles stay good
until the nodes are dropped. The nodes of the next generation have greater handles. So a handle that
a node ever had is given to no other.

* `Tree.Dated`: the trees of a generation; every edit yields one of the same generation.
* `Tree.Made`: what can become of a tree, and the handles of all nodes that were made meanwhile.
* `Tree.Made.nodup`: no handle is given twice.
-/

namespace SemanticCore

namespace Tree

/-- A tree of a generation. -/
def Dated (g : Nat) (t : Tree) : Prop := t.pool.generation = g

variable {g : Nat} {t t' : Tree} {id : NodeId} {ids : List NodeId} {n : Node}

theorem create_cases {location : Location} {kind : NodeKind} {payload : Payload}
    (h : t.create location kind payload = .ok (id, t')) :
    t.size < Handle.span ∧ id = t.pool.nextHandle ∧
      t'.pool = { t.pool with items := t.pool.items.push { id, kind, payload, location } } := by
  unfold Tree.create at h
  split at h
  · rename_i hPool
    cases h
    obtain ⟨hRoom, rfl, hPush⟩ := Pool.construct?_eq_some hPool
    exact ⟨hRoom, rfl, hPush⟩
  · cases h

theorem size_create {location : Location} {kind : NodeKind} {payload : Payload}
    (h : t.create location kind payload = .ok (id, t')) : t'.size = t.size + 1 := by
  obtain ⟨-, -, hPool⟩ := create_cases h
  rw [size, hPool, Pool.size, Array.size_push]
  rfl

theorem size_modify (t : Tree) (id : NodeId) (f : Node → Node) : (t.modify id f).size = t.size :=
  Pool.size_modify f

theorem generation_modify (t : Tree) (id : NodeId) (f : Node → Node) :
    (t.modify id f).pool.generation = t.pool.generation :=
  Pool.generation_modify f

theorem dated_edit (g : Nat) : EditInvariant (Dated g) where
  modify _ h := (generation_modify _ _ _).trans h

theorem dated_form (g : Nat) : FormInvariant (Dated g) :=
  (dated_edit g).form fun hNew h => by
    obtain ⟨-, -, hPool⟩ := create_cases hNew
    rw [Dated, hPool]
    exact h

/-! ## Handles that were given -/

/-- What can become of a tree that was empty first: nodes are made and changed, and all nodes are
dropped. With it stand the handles of all nodes that were made, in order, also of those that were
dropped since. -/
inductive Made : Tree → List NodeId → Prop
  | empty : Made {} []
  | create {t t' : Tree} {ids : List NodeId} {location : Location} {kind : NodeKind}
    {payload : Payload} {id : NodeId} (h : Made t ids)
    (hNew : t.create location kind payload = .ok (id, t')) : Made t' (ids ++ [id])
  | modify {t : Tree} {ids : List NodeId} (h : Made t ids) (id : NodeId) {f : Node → Node}
    (hId : ∀ n, (f n).id = n.id) : Made (t.modify id f) ids
  | release {t : Tree} {ids : List NodeId} (h : Made t ids) : Made t.release ids

namespace Made

theorem numbered (h : Made t ids) : t.Numbered := by
  induction h with
  | empty => exact (wellLinked_empty 0).numbered
  | create _ hNew ih => exact ih.create hNew
  | modify _ id hId ih => exact ih.modify hId
  | release _ _ => exact (wellLinked_empty _).numbered

/-- The handles given so far are below the next one. -/
theorem lt_next (h : Made t ids) :
    ∀ id ∈ ids, ∃ i, id = .ofNat i ∧ i < t.pool.generation * Handle.span + t.size := by
  induction h with
  | empty => simp
  | @create t t' ids location kind payload id _ hNew ih =>
    obtain ⟨-, rfl, hPool⟩ := create_cases hNew
    rw [size_create hNew, hPool]
    intro k hk
    rcases List.mem_append.mp hk with hk | hk
    · obtain ⟨i, hi, hLt⟩ := ih k hk
      exact ⟨i, hi, Nat.lt_succ_of_lt hLt⟩
    · exact ⟨_, List.mem_singleton.mp hk, Nat.lt_succ_self _⟩
  | @modify t ids _ id f _ ih =>
    rw [size_modify, generation_modify]
    exact ih
  | @release t ids h ih =>
    intro k hk
    obtain ⟨i, hi, hLt⟩ := ih k hk
    have hSize : t.size ≤ Handle.span := h.numbered.size_le
    refine ⟨i, hi, ?_⟩
    show i < (t.pool.generation + 1) * Handle.span + 0
    rw [Nat.add_mul]
    omega

/-- No handle is given twice. -/
theorem nodup (h : Made t ids) : ids.Nodup := by
  induction h with
  | empty => exact List.nodup_nil
  | create h hNew ih =>
    obtain ⟨-, rfl, -⟩ := create_cases hNew
    refine ih.append (List.nodup_singleton _) (List.disjoint_singleton.mpr fun hMem => ?_)
    obtain ⟨i, hi, hLt⟩ := h.lt_next _ hMem
    exact Nat.ne_of_gt hLt (Number.ofNat_injective hi)
  | modify _ _ _ ih => exact ih
  | release _ ih => exact ih

theorem handle_mem (h : Made t ids) : ∀ i < t.size, t.pool.handle i ∈ ids := by
  induction h with
  | empty => exact fun i hi => absurd hi (Nat.not_lt_zero i)
  | @create t t' ids location kind payload id _ hNew ih =>
    obtain ⟨-, rfl, hPool⟩ := create_cases hNew
    have hHandle : t'.pool.handle = t.pool.handle := by rw [hPool]; rfl
    intro i hi
    rw [hHandle]
    rcases Nat.lt_succ_iff_lt_or_eq.mp (size_create hNew ▸ hi) with hLt | rfl
    · exact List.mem_append_left _ (ih i hLt)
    · exact List.mem_append_right _ List.mem_cons_self
  | @modify t ids _ id f _ ih =>
    intro i hi
    rw [Pool.handle, generation_modify]
    exact ih i (t.size_modify id f ▸ hi)
  | release _ _ => exact fun i hi => absurd hi (Nat.not_lt_zero i)

/-- The handles of the nodes that are there are among those given. -/
theorem id_mem (h : Made t ids) (hn : n ∈ t.nodes) : n.id ∈ ids := by
  obtain ⟨i, hi, rfl⟩ := List.mem_iff_getElem.mp hn
  rw [h.numbered.id_of_get? (h.numbered.get?_handle hi)]
  exact h.handle_mem i (by simpa [size, Pool.size, nodes, Pool.values] using hi)

/-- To have come from a tree with some handles is kept by every edit. -/
theorem edit (ids : List NodeId) : EditInvariant fun t => ∃ more, Made t (ids ++ more) where
  modify hId h := by
    obtain ⟨more, h⟩ := h
    exact ⟨more, h.modify _ hId⟩

theorem form (ids : List NodeId) : FormInvariant fun t => ∃ more, Made t (ids ++ more) :=
  (edit ids).form fun hNew h => by
    obtain ⟨more, h⟩ := h
    exact ⟨more ++ [_], List.append_assoc .. ▸ h.create hNew⟩

end Made

end Tree

end SemanticCore
