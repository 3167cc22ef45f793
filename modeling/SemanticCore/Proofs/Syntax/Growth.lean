import Mathlib.Data.List.ReduceOption
import SemanticCore.Proofs.Syntax.EditEffect

/-!
# New nodes and their children

Building a node makes it and the no-ops that stand for absent children, and then moves all its
children under it. The first only adds to the tree (`Tree.Grown`), the second only changes links
(`Tree.Gathered`).

* `Form.exists_fillPlaces`, `Form.fillPlaces_full`: the no-ops are made as long as handles last.
* `Form.exists_attach`: a node without a parent can get any children other than itself.
-/

namespace SemanticCore

namespace Tree

variable {t t' t'' : Tree} {id : NodeId} {made more : List Node}

/-! ## Trees that grow -/

/-- Nodes were made, and those that were there are as they were. -/
structure Grown (t : Tree) (made : List Node) (t' : Tree) : Prop where
  size_eq : t'.size = t.size + made.length
  kept : ∀ k n, t.get? k = some n → t'.get? k = some n
  found : ∀ n ∈ made, t'.get? n.id = some n
  fresh : ∀ n ∈ made, t.get? n.id = none
  nodup : (made.map (·.id)).Nodup

namespace Grown

theorem refl (t : Tree) : t.Grown [] t where
  size_eq := rfl
  kept _ _ h := h
  found _ hn := absurd hn List.not_mem_nil
  fresh _ hn := absurd hn List.not_mem_nil
  nodup := List.nodup_nil

theorem get?_eq_none (h : t.Grown made t') (hk : id ∈ made.map (·.id)) : t.get? id = none := by
  obtain ⟨n, hn, rfl⟩ := List.mem_map.mp hk
  exact h.fresh n hn

theorem trans (h : t.Grown made t') (h' : t'.Grown more t'') : t.Grown (made ++ more) t'' where
  size_eq := by rw [h'.size_eq, h.size_eq, List.length_append, Nat.add_assoc]
  kept k n hGet := h'.kept k n (h.kept k n hGet)
  found n hn := by
    rcases List.mem_append.mp hn with hn | hn
    · exact h'.kept _ _ (h.found n hn)
    · exact h'.found n hn
  fresh n hn := by
    rcases List.mem_append.mp hn with hn | hn
    · exact h.fresh n hn
    · -- what was there at first would still be there
      refine Option.eq_none_iff_forall_ne_some.mpr fun m hm => ?_
      have hNone := h'.fresh n hn
      rw [h.kept _ _ hm] at hNone
      cases hNone
  nodup := by
    rw [List.map_append]
    refine List.nodup_append.mpr ⟨h.nodup, h'.nodup, fun a ha b hb hEq => ?_⟩
    obtain ⟨n, hn, rfl⟩ := List.mem_map.mp ha
    obtain ⟨m, hm, rfl⟩ := List.mem_map.mp hb
    have hNone := h'.fresh m hm
    rw [← hEq, h.found n hn] at hNone
    cases hNone

theorem perm (h : t.Grown made t') (hPerm : made.Perm more) : t.Grown more t' where
  size_eq := by rw [h.size_eq, hPerm.length_eq]
  kept := h.kept
  found n hn := h.found n (hPerm.mem_iff.mpr hn)
  fresh n hn := h.fresh n (hPerm.mem_iff.mpr hn)
  nodup := (hPerm.map _).nodup_iff.mp h.nodup

end Grown

theorem exists_create (location : Location) (kind : NodeKind) (payload : Payload)
    (h : t.size < Handle.span) :
    ∃ t', t.create location kind payload = .ok (t.pool.nextHandle, t') ∧
      t.Grown [{ id := t.pool.nextHandle, kind, payload, location }] t' := by
  cases hNew : t.create location kind payload with
  | error e =>
    have hRoom : t.pool.items.size < Handle.span := h
    rw [create, Pool.construct?, if_pos hRoom] at hNew
    cases hNew
  | ok result =>
    obtain ⟨id, t'⟩ := result
    obtain ⟨rfl, hNone, -, hGet⟩ := create_eq_ok hNew
    refine ⟨t', rfl, size_create hNew, fun k n hk => ?_, ?_, ?_, List.nodup_singleton _⟩
    · rw [hGet, if_neg, hk]
      rintro rfl
      rw [hNone] at hk
      cases hk
    · simp [hGet]
    · simp [hNone]

theorem create_full (location : Location) (kind : NodeKind) (payload : Payload)
    (h : Handle.span ≤ t.size) :
    t.create location kind payload = .error .poolExhausted := by
  have hFull : ¬ t.pool.items.size < Handle.span := Nat.not_lt.mpr h
  rw [create, Pool.construct?, if_neg hFull]

end Tree

/-! ## Places that are filled -/

/-- The nodes at some places: where none is given stands the next of the new ones. -/
def fillPlaces : List (Option NodeId) → List NodeId → List NodeId
  | some c :: places, new => c :: fillPlaces places new
  | none :: places, k :: new => k :: fillPlaces places new
  | [], _ | none :: _, [] => []

theorem fillPlaces_perm {places : List (Option NodeId)} {new : List NodeId}
    (h : new.length = places.count none) :
    (fillPlaces places new).Perm (places.reduceOption ++ new) := by
  induction places generalizing new with
  | nil =>
    rw [List.length_eq_zero_iff.mp h]
    exact .nil
  | cons place places ih =>
    cases place with
    | some c =>
      rw [List.count_cons_of_ne (by simp)] at h
      exact (ih h).cons c
    | none =>
      rw [List.count_cons_self] at h
      obtain ⟨k, new, rfl⟩ := List.exists_cons_of_length_eq_add_one h
      exact ((ih (Nat.succ.inj h)).cons k).trans List.perm_middle.symm

namespace Form

variable {t : Tree} {p : NodeId} {location : Location}

theorem fillSlots_append (a b : List Slot) :
    fillSlots location (a ++ b) = do
      let held ← fillSlots location a
      let more ← fillSlots location b
      return held ++ more := by
  induction a with
  | nil => simp [fillSlots]
  | cons s a ih => simp [fillSlots, ih]

theorem fillSlots_given (children : List (Option NodeId)) :
    fillSlots location (children.map .given) = return children := by
  induction children with
  | nil => rfl
  | cons c children ih => simp [fillSlots, Slot.fill, ih]

/-- The no-op that stands for an absent child. -/
def noopAt (location : Location) (id : NodeId) : Node :=
  { id, kind := .noop, payload := .plain, location }

theorem exists_fill_absent (location : Location) (h : t.size < Handle.span) :
    ∃ t', Slot.fill location (.filled none) t = (.ok (some t.pool.nextHandle), t') ∧
      t.Grown [noopAt location t.pool.nextHandle] t' := by
  obtain ⟨t', hNew, hGrown⟩ := Tree.exists_create location .noop .plain h
  exact ⟨t', Build.bind_of_ok (Build.edit_of_ok hNew), hGrown⟩

theorem exists_fillPlaces (location : Location) (places : List (Option NodeId))
    (h : t.size + places.count none ≤ Handle.span) :
    ∃ new t', fillSlots location (places.map .filled) t =
        (.ok ((fillPlaces places new).map some), t') ∧
      new.length = places.count none ∧ t.Grown (new.map (noopAt location)) t' := by
  induction places generalizing t with
  | nil => exact ⟨[], t, rfl, rfl, .refl t⟩
  | cons place places ih =>
    cases place with
    | some c =>
      rw [List.count_cons_of_ne (by simp)] at h ⊢
      obtain ⟨new, t', hFill, hLength, hGrown⟩ := ih h
      exact ⟨new, t', Build.bind_of_ok hFill, hLength, hGrown⟩
    | none =>
      rw [List.count_cons_self] at h ⊢
      have hRoom : t.size < Handle.span := by omega
      obtain ⟨t₁, hSlot, hFirst⟩ := exists_fill_absent location hRoom
      have hSize : t₁.size = t.size + 1 := hFirst.size_eq
      obtain ⟨new, t', hFill, hLength, hGrown⟩ := ih (t := t₁) (by omega)
      refine ⟨t.pool.nextHandle :: new, t', (Build.bind_of_ok hSlot).trans (Build.bind_of_ok hFill),
        congrArg (· + 1) hLength, hFirst.trans hGrown⟩

theorem fillPlaces_full (location : Location) (places : List (Option NodeId))
    (hSize : t.size ≤ Handle.span) (h : Handle.span < t.size + places.count none) :
    ∃ t', fillSlots location (places.map .filled) t = (.error .poolExhausted, t') := by
  induction places generalizing t with
  | nil => exact absurd hSize (Nat.not_le.mpr h)
  | cons place places ih =>
    cases place with
    | some c =>
      rw [List.count_cons_of_ne (by simp)] at h
      obtain ⟨t', hFill⟩ := ih hSize h
      have hSlot : Slot.fill location (.filled (some c)) t = (.ok (some c), t) := rfl
      exact ⟨t', (Build.bind_of_ok hSlot).trans (Build.bind_of_error hFill)⟩
    | none =>
      rw [List.count_cons_self] at h
      by_cases hRoom : t.size < Handle.span
      · obtain ⟨t₁, hSlot, hFirst⟩ := exists_fill_absent location hRoom
        have hGrown : t₁.size = t.size + 1 := hFirst.size_eq
        obtain ⟨t', hFill⟩ := ih (t := t₁) (by omega) (by omega)
        exact ⟨t', (Build.bind_of_ok hSlot).trans (Build.bind_of_error hFill)⟩
      · have hNew := Tree.create_full location .noop .plain (Nat.not_lt.mp hRoom)
        have hSlot : Slot.fill location (.filled none) t = (.error .poolExhausted, t) :=
          Build.bind_of_error (Build.edit_of_error hNew)
        exact ⟨t, Build.bind_of_error hSlot⟩

end Form

/-! ## Children of a new node -/

namespace Tree

variable {t t' t'' : Tree} {id k p c : NodeId} {n : Node} {cs : List NodeId}

/-- Some nodes have become the last children of another, and left those they were children of. -/
structure Gathered (t : Tree) (p : NodeId) (cs : List NodeId) (t' : Tree) : Prop where
  rest : t.OnlyLinks t'
  parent?_eq : ∀ k, t'.parent? k = if k ∈ cs then some p else t.parent? k
  childrenOf_eq : ∀ k, t'.childrenOf k =
    (t.childrenOf k).filter (· ∉ cs) ++ if k = p then cs else []

namespace Gathered

theorem nil (t : Tree) : t.Gathered p [] t where
  rest := .refl t
  parent?_eq k := by simp
  childrenOf_eq k := by simp

theorem cons (h : t.Linked True) (hCan : t.CanAdopt p c) (hc : c ∉ cs)
    (hRest : Gathered ((t.moveTo p c).setChildren p (· ++ [c])) p cs t') :
    t.Gathered p (c :: cs) t' where
  rest := (OnlyLinks.moveTo.trans .setChildren).trans hRest.rest
  parent?_eq k := by
    rw [hRest.parent?_eq, hCan.parent?_place, Function.update_apply]
    by_cases hk : k = c
    · simp [hk, hc]
    · simp [hk]
  childrenOf_eq k := by
    rw [hRest.childrenOf_eq, h.childrenOf_place hCan.parent, Function.update_apply]
    have hErase : ((t.childrenOf k).erase c).filter (· ∉ cs) =
        (t.childrenOf k).filter (· ∉ c :: cs) := by
      rw [(h.forest.nodup_children k).erase_eq_filter, List.filter_filter]
      refine List.filter_congr fun x _ => ?_
      simp [bne, Bool.and_comm, beq_eq_decide]
    by_cases hk : k = p
    · subst hk
      simp only [if_true, List.filter_append, hErase, List.append_assoc]
      simp [hc]
    · simp only [if_neg hk, hErase]

theorem get?_eq (h : t.Gathered p cs t') (hGet : t.get? k = some n) :
    t'.get? k = some { n with
      parent := if k ∈ cs then some p else n.parent
      children := n.children.filter (· ∉ cs) ++ if k = p then cs else [] } := by
  rw [h.rest.get?_eq, hGet, Option.map_some, h.parent?_eq, h.childrenOf_eq,
    parent?_of_get? hGet, childrenOf_of_get? hGet]

end Gathered

end Tree

/-- Nothing keeps nodes from going under one that has no parent: none of them is above it, and this
stays so while they do, also when one of them is a child of another. -/
theorem Form.exists_attach {t : Tree} {p : NodeId} (children : List (Option NodeId))
    (h : t.WellLinked) (hp : (t.get? p).isSome) (hTop : t.parent? p = none)
    (hLive : ∀ c ∈ children.reduceOption, (t.get? c).isSome) (hSelf : p ∉ children.reduceOption)
    (hNodup : children.reduceOption.Nodup) :
    ∃ t', attach p children t = (.ok (), t') ∧ t.Gathered p children.reduceOption t' := by
  induction children generalizing t with
  | nil => exact ⟨t, rfl, .nil t⟩
  | cons child children ih =>
    cases child with
    | none =>
      obtain ⟨t', hAttach, hGathered⟩ := ih h hp hTop hLive hSelf hNodup
      have hSkip : Build.addChild p none t = (.ok (), t) := Build.edit_of_ok rfl
      exact ⟨t', (Build.bind_of_ok hSkip).trans hAttach, hGathered⟩
    | some c =>
      rw [List.reduceOption_cons_of_some] at hLive hSelf hNodup ⊢
      obtain ⟨hNotMem, hNodup⟩ := List.nodup_cons.mp hNodup
      obtain ⟨hNe, hSelf⟩ := not_or.mp (List.mem_cons.not.mp hSelf)
      have hCan : t.CanAdopt p c :=
        .of_topmost hp (hLive c List.mem_cons_self) (Ne.symm hNe) hTop
      have hAdd := (Tree.addChild_eq_ok_iff h.rooted).mpr ⟨hCan, rfl⟩
      have hFirst : Build.addChild p (some c) t =
          (.ok (), (t.moveTo p c).setChildren p (· ++ [c])) :=
        Build.edit_of_ok (bind_eq_ok.mpr ⟨_, hAdd, rfl⟩)
      have hSome : ∀ k, (((t.moveTo p c).setChildren p (· ++ [c])).get? k).isSome =
          (t.get? k).isSome :=
        fun k => Tree.isSome_get?_setChildren.trans Tree.isSome_get?_moveTo
      have hLinked : ((t.moveTo p c).setChildren p (· ++ [c])).WellLinked :=
        h.edited (.place hCan fun _ => List.perm_append_singleton _ _)
      have hStillTop : ((t.moveTo p c).setChildren p (· ++ [c])).parent? p = none := by
        rw [hCan.parent?_place, Function.update_of_ne hNe, hTop]
      obtain ⟨t', hAttach, hGathered⟩ := ih hLinked ((hSome p).trans hp) hStillTop
        (fun k hk => (hSome k).trans (hLive k (List.mem_cons_of_mem c hk))) hSelf hNodup
      exact ⟨t', (Build.bind_of_ok hFirst).trans hAttach, .cons h hCan hNotMem hGathered⟩

end SemanticCore
