import SemanticCore.Proofs.Syntax.Ancestry

/-!
# Edits of the links

An edit of children is composed of a few changes of single nodes. What these do to the links
together is a move of one vertex in the forest of links, or the loss of one link. So each edit that
is not refused keeps a tree rooted, and it keeps a tree linked.

* `Tree.adopt_eq_ok_iff`: when a node can go to a new parent, and the tree then.
* `Tree.Edited`: all that an edit can make of a tree.
* `Tree.Rooted.edited`, `Tree.Linked.edited`: what every edit keeps.
-/

namespace SemanticCore

namespace Tree

variable {strict : Prop} {t t' : Tree} {id p c old next : NodeId} {n : Node}
  {f : List NodeId → List NodeId}

/-! ## Changes that leave the links -/

theorem Rooted.modify (h : t.Rooted) {f : Node → Node} (hId : ∀ n, (f n).id = n.id)
    (hParent : ∀ n, (f n).parent = n.parent) (hChildren : ∀ n, (f n).children = n.children) :
    (t.modify id f).Rooted where
  numbered := h.numbered.modify hId
  resolve := h.resolve.modify (fun n _ hp => Or.inl (hParent n ▸ hp))
    fun n _ hk => Or.inl (hChildren n ▸ hk)
  grounded := by
    rw [parent?_modify hParent]
    exact h.grounded

/-- A change that leaves the links of every node keeps a tree linked. -/
theorem Linked.modify (h : t.Linked strict) {f : Node → Node} (hId : ∀ n, (f n).id = n.id)
    (hParent : ∀ n, (f n).parent = n.parent) (hChildren : ∀ n, (f n).children = n.children) :
    (t.modify id f).Linked strict where
  numbered := (h.rooted.modify hId hParent hChildren).numbered
  resolve := (h.rooted.modify hId hParent hChildren).resolve
  forest := by
    rw [parent?_modify hParent, childrenOf_modify hChildren]
    exact h.forest

section Create

variable {location : Location} {kind : NodeKind} {payload : Payload}
  (hNew : t.create location kind payload = .ok (id, t'))

include hNew

/-- A new node has no links. -/
theorem links_create : t'.parent? = t.parent? ∧ t'.childrenOf = t.childrenOf := by
  obtain ⟨-, hNone, -, hGet⟩ := create_eq_ok hNew
  constructor
  · funext k
    rw [parent?, parent?, hGet]
    split
    · rename_i hEq
      rw [hEq, hNone]
      rfl
    · rfl
  · funext k
    rw [childrenOf, childrenOf, hGet]
    split
    · rename_i hEq
      rw [hEq, hNone]
      rfl
    · rfl

theorem Numbered.create (h : t.Numbered) : t'.Numbered := by
  obtain ⟨-, -, hSize, hGet⟩ := create_eq_ok hNew
  refine ⟨fun {k m} hk => ?_, hSize⟩
  rw [hGet] at hk
  split at hk
  · rename_i hEq
    cases hk
    exact hEq.symm
  · exact h.id_of_get? hk

theorem Rooted.create (h : t.Rooted) : t'.Rooted := by
  obtain ⟨-, -, -, hGet⟩ := create_eq_ok hNew
  refine ⟨h.numbered.create hNew, fun k m hk x hx => ?_, ?_⟩
  · rw [hGet] at hk ⊢
    split
    · rfl
    · split at hk
      · cases hk
        simp at hx
      · exact h.resolve hk x hx
  · rw [(links_create hNew).1]
    exact h.grounded

theorem Linked.create (h : t.Linked strict) : t'.Linked strict where
  numbered := (h.rooted.create hNew).numbered
  resolve := (h.rooted.create hNew).resolve
  forest := by
    rw [(links_create hNew).1, (links_create hNew).2]
    exact h.forest

end Create

/-! ## A node goes to a new parent -/

/-- A tree in which a node has left the children of its parent. -/
def leaveParent (t : Tree) (c : NodeId) : Tree :=
  match t.parent? c with
  | none => t
  | some q => t.setChildren q (·.erase c)

/-- A tree in which a node has left the children of its parent for a new one. -/
def moveTo (t : Tree) (p c : NodeId) : Tree := (t.leaveParent c).setParent c (some p)

theorem isSome_get?_leaveParent : ((t.leaveParent c).get? id).isSome = (t.get? id).isSome := by
  unfold leaveParent
  split
  · rfl
  · exact isSome_get?_setChildren

theorem parent?_leaveParent : (t.leaveParent c).parent? = t.parent? := by
  unfold leaveParent
  split
  · rfl
  · exact parent?_setChildren

theorem childrenOf_leaveParent (h : t.Linked strict) :
    (t.leaveParent c).childrenOf = fun x => (t.childrenOf x).erase c := by
  have hOther : ∀ x, t.parent? c ≠ some x → (t.childrenOf x).erase c = t.childrenOf x :=
    fun x hx => List.erase_of_not_mem fun hMem => hx (h.forest.parent_of_mem hMem)
  funext x
  unfold leaveParent
  split
  · rename_i hRoot
    exact (hOther x (by simp [hRoot])).symm
  · rename_i q hq
    rw [childrenOf_setChildren (h.resolve.isSome_of_parent? hq), Function.update_apply]
    split
    · rename_i hEq
      rw [hEq]
    · rename_i hNe
      exact (hOther x (by simpa [hq] using Ne.symm hNe)).symm

theorem isSome_get?_moveTo : ((t.moveTo p c).get? id).isSome = (t.get? id).isSome := by
  rw [moveTo, isSome_get?_setParent, isSome_get?_leaveParent]

theorem parent?_moveTo (hc : (t.get? c).isSome) :
    (t.moveTo p c).parent? = Function.update t.parent? c (some p) := by
  rw [moveTo, parent?_setParent (isSome_get?_leaveParent.trans hc), parent?_leaveParent]

theorem childrenOf_moveTo (h : t.Linked strict) :
    (t.moveTo p c).childrenOf = fun x => (t.childrenOf x).erase c := by
  rw [moveTo, childrenOf_setParent, childrenOf_leaveParent h]

theorem Numbered.moveTo (h : t.Numbered) : (t.moveTo p c).Numbered := by
  have hLeft : (t.leaveParent c).Numbered := by
    unfold leaveParent
    split
    · exact h
    · exact h.setChildren
  exact hLeft.setParent

theorem LinksResolve.moveTo (h : t.LinksResolve) (hp : (t.get? p).isSome) :
    (t.moveTo p c).LinksResolve := by
  have hLeft : (t.leaveParent c).LinksResolve := by
    unfold leaveParent
    split
    · exact h
    · exact h.setChildren fun _ _ hk => Or.inl (List.mem_of_mem_erase hk)
  refine hLeft.setParent fun q hq => ?_
  cases hq
  rwa [isSome_get?_leaveParent]

/-- A node can go under another unless it is that one or above it. -/
structure CanAdopt (t : Tree) (p c : NodeId) : Prop where
  parent : (t.get? p).isSome
  child : (t.get? c).isSome
  ne : c ≠ p
  not_above : ¬ t.Ancestor c p

/-- What it takes for a node to go to a new parent, whatever the links of the tree are. -/
theorem adopt_eq_ok : t.adopt p c = .ok t' ↔
    (∃ ns, t.ancestors p = .ok ns ∧ ¬ (c = p ∨ ns.any (·.id == c) = true)) ∧ (t.get? c).isSome ∧
      (∀ q, t.parent? c = some q → (t.get? q).isSome) ∧ t' = t.moveTo p c := by
  rw [adopt]
  cases t.ancestors p with
  | error e =>
    constructor
    · intro hThrow
      cases hThrow
    · rintro ⟨⟨ns, hAncestors, -⟩, -⟩
      cases hAncestors
  | ok ns =>
    rw [ok_bind]
    simp only [Except.ok.injEq, exists_eq_left']
    by_cases hCycle : c = p ∨ ns.any (·.id == c) = true
    · rw [if_pos hCycle]
      constructor
      · intro hThrow
        cases hThrow
      · rintro ⟨hNot, -⟩
        exact absurd hCycle hNot
    · rw [if_neg hCycle, bind_eq_ok]
      simp only [node_eq_ok_iff, hCycle, not_false_eq_true, true_and]
      cases hc : t.get? c with
      | none => simp
      | some C =>
        simp only [Option.some.injEq, exists_eq_left', Option.isSome_some, true_and]
        rw [moveTo, leaveParent, parent?_of_get? hc]
        cases C.parent with
        | none =>
          refine ⟨fun hPure => ⟨nofun, (Except.ok.inj hPure).symm⟩, ?_⟩
          rintro ⟨-, rfl⟩
          rfl
        | some q =>
          simp only [bind_eq_ok, update_eq_ok_iff, Option.some.injEq, forall_eq', and_assoc,
            exists_and_left, exists_eq_left]
          refine and_congr_right fun _ => ⟨fun hPure => (Except.ok.inj hPure).symm, ?_⟩
          rintro rfl
          rfl

theorem adopt_eq_ok_iff (h : t.Rooted) (hp : (t.get? p).isSome) :
    t.adopt p c = .ok t' ↔ t.CanAdopt p c ∧ t' = t.moveTo p c := by
  obtain ⟨m, hGet⟩ := Option.isSome_iff_exists.mp hp
  obtain ⟨ns, hAncestors, hMem⟩ := h.exists_ancestors hGet
  have hAny : ns.any (·.id == c) = true ↔ t.Ancestor c p := by
    simpa [List.any_eq_true] using hMem c
  rw [adopt_eq_ok, hAncestors]
  simp only [Except.ok.injEq, exists_eq_left', not_or, hAny]
  constructor
  · rintro ⟨⟨hNe, hUp⟩, hc, -, rfl⟩
    exact ⟨⟨hp, hc, hNe, hUp⟩, rfl⟩
  · rintro ⟨hCan, rfl⟩
    exact ⟨⟨hCan.ne, hCan.not_above⟩, hCan.child, fun q => h.resolve.isSome_of_parent?, rfl⟩

/-! ## What edits make of a tree -/

/-- The trees that an edit of the children makes of a tree: nothing happens, a node goes among the
children of another, or in the place of a child, or a child is taken out. -/
inductive Edited (t : Tree) : Tree → Prop
  | same : Edited t t
  | place {p c : NodeId} {f : List NodeId → List NodeId} (hCan : t.CanAdopt p c)
      (hPerm : ∀ l, (f l).Perm (c :: l)) : Edited t ((t.moveTo p c).setChildren p f)
  | replace {p old next : NodeId} (hCan : t.CanAdopt p next) (hOld : old ∈ t.childrenOf p)
      (hOther : old ≠ next) :
      Edited t (((t.moveTo p next).setChildren p (·.replace old next)).setParent old none)
  | remove {p c : NodeId} (hc : c ∈ t.childrenOf p) :
      Edited t ((t.setChildren p (·.erase c)).setParent c none)

theorem clampTo_le (length : Nat) (index : Number) : index.clampTo length ≤ length := by
  cases index with
  | nan => exact Nat.zero_le _
  | infinity negative => cases negative <;> simp [Number.clampTo]
  | finite q => exact Nat.min_le_right _ _

theorem addChild_eq_ok_iff (h : t.Rooted) :
    t.addChild p (some c) = .ok t' ↔
      t.CanAdopt p c ∧ t' = (t.moveTo p c).setChildren p (· ++ [c]) := by
  rw [addChild, bind_eq_ok]
  constructor
  · rintro ⟨m, hm, hRest⟩
    obtain ⟨t₁, hAdopt, hPure⟩ := bind_eq_ok.mp hRest
    have hp := Option.isSome_of_eq_some (node_eq_ok_iff.mp hm)
    obtain ⟨hCan, rfl⟩ := (adopt_eq_ok_iff h hp).mp hAdopt
    exact ⟨hCan, (Except.ok.inj hPure).symm⟩
  · rintro ⟨hCan, rfl⟩
    obtain ⟨m, hm⟩ := Option.isSome_iff_exists.mp hCan.parent
    refine ⟨m, node_of_get? hm, ?_⟩
    rw [(adopt_eq_ok_iff h hCan.parent).mpr ⟨hCan, rfl⟩]
    rfl

theorem addChild_edited (h : t.Rooted) {child : Option NodeId}
    (hOk : t.addChild p child = .ok t') : t.Edited t' := by
  cases child with
  | none => exact Except.ok.inj hOk ▸ .same
  | some c =>
    obtain ⟨hCan, rfl⟩ := (addChild_eq_ok_iff h).mp hOk
    exact .place hCan fun _ => List.perm_append_singleton _ _

theorem insertChild_edited (h : t.Rooted) {index : Number}
    (hOk : t.insertChild p index c = .ok t') : t.Edited t' := by
  obtain ⟨m, hm, hRest⟩ := bind_eq_ok.mp hOk
  obtain ⟨t₁, hAdopt, hPure⟩ := bind_eq_ok.mp hRest
  have hp := Option.isSome_of_eq_some (node_eq_ok_iff.mp hm)
  obtain ⟨hCan, rfl⟩ := (adopt_eq_ok_iff h hp).mp hAdopt
  rw [← Except.ok.inj hPure]
  exact .place (f := fun l => l.insertIdx (index.clampTo l.length) c) hCan
    fun _ => List.perm_insertIdx _ _ (clampTo_le _ _)

theorem removeChild_edited {found : Bool} (hOk : t.removeChild p c = .ok (found, t')) :
    t.Edited t' := by
  obtain ⟨m, hm, hRest⟩ := bind_eq_ok.mp hOk
  split at hRest
  · rename_i hMem
    rw [← childrenOf_of_get? (node_eq_ok_iff.mp hm)] at hMem
    obtain ⟨t₁, hUpdate, hPure⟩ := bind_eq_ok.mp hRest
    obtain ⟨-, rfl⟩ := update_eq_ok_iff.mp hUpdate
    cases hPure
    exact .remove hMem
  · cases hRest
    exact .same

theorem replaceChild_edited (h : t.Rooted) {found : Bool}
    (hOk : t.replaceChild p old next = .ok (found, t')) : t.Edited t' := by
  obtain ⟨m, hm, hRest⟩ := bind_eq_ok.mp hOk
  have hp := Option.isSome_of_eq_some (node_eq_ok_iff.mp hm)
  split at hRest
  · cases hRest
    exact .same
  · rename_i hOld
    rw [← childrenOf_of_get? (node_eq_ok_iff.mp hm), not_not] at hOld
    split at hRest
    · cases hRest
      exact .same
    · rename_i hOther
      obtain ⟨t₁, hAdopt, hReplace⟩ := bind_eq_ok.mp hRest
      obtain ⟨hCan, rfl⟩ := (adopt_eq_ok_iff h hp).mp hAdopt
      obtain ⟨t₂, hUpdate, hPure⟩ := bind_eq_ok.mp hReplace
      obtain ⟨-, rfl⟩ := update_eq_ok_iff.mp hUpdate
      cases hPure
      exact .replace hCan hOld hOther

/-! ## Edits keep the way up -/

theorem mem_or_eq_of_mem_replace {l : List NodeId} {k : NodeId} (h : k ∈ l.replace old next) :
    k ∈ l ∨ k = next := by
  induction l with
  | nil => cases h
  | cons x l ih =>
    rw [List.replace_cons] at h
    split at h
    · exact (List.mem_cons.mp h).symm.imp_left (List.mem_cons_of_mem _)
    · rcases List.mem_cons.mp h with rfl | h
      · exact Or.inl List.mem_cons_self
      · exact (ih h).imp_left (List.mem_cons_of_mem _)

theorem CanAdopt.grounded (hCan : t.CanAdopt p c) (h : t.Rooted) :
    ParentMap.Grounded (t.moveTo p c).parent? := by
  rw [parent?_moveTo hCan.child]
  exact h.grounded.attach hCan.ne hCan.not_above

theorem grounded_setParent_none (h : ParentMap.Grounded t.parent?) (hc : (t.get? c).isSome) :
    ParentMap.Grounded (t.setParent c none).parent? := by
  rw [parent?_setParent hc]
  exact h.of_le ParentMap.le_of_update_none

theorem Rooted.edited (h : t.Rooted) (hEdit : t.Edited t') : t'.Rooted := by
  cases hEdit with
  | same => exact h
  | @place p c f hCan hPerm =>
    refine ⟨h.numbered.moveTo.setChildren, (h.resolve.moveTo hCan.parent).setChildren ?_, ?_⟩
    · intro l k hk
      refine (List.mem_cons.mp ((hPerm l).mem_iff.mp hk)).symm.imp_right fun hEq => ?_
      rw [hEq, isSome_get?_moveTo]
      exact hCan.child
    · rw [parent?_setChildren]
      exact hCan.grounded h
  | @replace p old next hCan hOld _ =>
    refine ⟨h.numbered.moveTo.setChildren.setParent,
      ((h.resolve.moveTo hCan.parent).setChildren ?_).setParent (by simp), ?_⟩
    · intro l k hk
      refine (mem_or_eq_of_mem_replace hk).imp_right fun hEq => ?_
      rw [hEq, isSome_get?_moveTo]
      exact hCan.child
    · refine grounded_setParent_none ?_ ?_
      · rw [parent?_setChildren]
        exact hCan.grounded h
      · rw [isSome_get?_setChildren, isSome_get?_moveTo]
        exact h.resolve.isSome_of_mem hOld
  | @remove p c hc =>
    refine ⟨h.numbered.setChildren.setParent,
      (h.resolve.setChildren fun _ _ hk => Or.inl (List.mem_of_mem_erase hk)).setParent (by simp),
      grounded_setParent_none ?_ ?_⟩
    · rw [parent?_setChildren]
      exact h.grounded
    · rw [isSome_get?_setChildren]
      exact h.resolve.isSome_of_mem hc

/-! ## Edits keep the lists of children -/

theorem CanAdopt.parent?_place (hCan : t.CanAdopt p c) :
    ((t.moveTo p c).setChildren p f).parent? = Function.update t.parent? c (some p) := by
  rw [parent?_setChildren, parent?_moveTo hCan.child]

theorem Linked.childrenOf_place (h : t.Linked strict) (hp : (t.get? p).isSome) :
    ((t.moveTo p c).setChildren p f).childrenOf =
      Function.update (fun q => (t.childrenOf q).erase c) p (f ((t.childrenOf p).erase c)) := by
  rw [childrenOf_setChildren (isSome_get?_moveTo.trans hp), childrenOf_moveTo h]

theorem Linked.place_perm (h : t.Linked strict) (hCan : t.CanAdopt p c)
    (hPerm : (f ((t.childrenOf p).erase c)).Perm (c :: (t.childrenOf p).erase c)) (x : NodeId) :
    (((t.moveTo p c).setChildren p f).childrenOf x).Perm
      (if x = p then c :: (t.childrenOf x).erase c else (t.childrenOf x).erase c) := by
  rw [h.childrenOf_place hCan.parent, Function.update_apply]
  split
  · rename_i hEq
    exact hEq ▸ hPerm
  · exact List.Perm.refl _

theorem Linked.place (h : t.Linked strict) (hCan : t.CanAdopt p c)
    (hPerm : (f ((t.childrenOf p).erase c)).Perm (c :: (t.childrenOf p).erase c)) :
    LinkForest strict ((t.moveTo p c).setChildren p f).parent?
      ((t.moveTo p c).setChildren p f).childrenOf := by
  rw [hCan.parent?_place]
  exact h.forest.move hCan.ne hCan.not_above (h.place_perm hCan hPerm)

theorem replace_perm {l : List NodeId} (h : old ∈ l) :
    (l.replace old next).Perm (next :: l.erase old) := by
  induction l with
  | nil => cases h
  | cons x l ih =>
    by_cases hx : x = old
    · subst hx
      simp
    · have hMem : old ∈ l := (List.mem_cons.mp h).resolve_left (Ne.symm hx)
      rw [List.replace_cons, beq_false_of_ne (Ne.symm hx), List.erase_cons_tail (by simpa using hx)]
      exact ((ih hMem).cons x).trans (List.Perm.swap next x _)

theorem Linked.replace_perm (h : t.Linked strict) (hCan : t.CanAdopt p next)
    (hOld : old ∈ t.childrenOf p) (hOther : old ≠ next) (x : NodeId) :
    ((((t.moveTo p next).setChildren p (·.replace old next)).setParent old none).childrenOf x).Perm
      (if x = p then next :: ((t.childrenOf x).erase old).erase next
        else ((t.childrenOf x).erase old).erase next) := by
  rw [childrenOf_setParent, h.childrenOf_place hCan.parent, Function.update_apply,
    List.erase_comm]
  split
  · rename_i hEq
    subst hEq
    exact Tree.replace_perm ((List.mem_erase_of_ne hOther).mpr hOld)
  · rename_i hx
    have hNotMem : old ∉ t.childrenOf x := by
      intro hMem
      have hEq := (h.forest.parent_of_mem hMem).symm.trans (h.forest.parent_of_mem hOld)
      exact hx (Option.some.inj hEq)
    rw [List.erase_of_not_mem fun hMem => hNotMem (List.mem_of_mem_erase hMem)]

theorem parent?_replace (hCan : t.CanAdopt p next) (hSome : (t.get? old).isSome)
    (hOther : old ≠ next) :
    (((t.moveTo p next).setChildren p (·.replace old next)).setParent old none).parent? =
      Function.update (Function.update t.parent? old none) next (some p) := by
  have hSome' : (((t.moveTo p next).setChildren p (·.replace old next)).get? old).isSome := by
    rwa [isSome_get?_setChildren, isSome_get?_moveTo]
  rw [parent?_setParent hSome', hCan.parent?_place, Function.update_comm hOther.symm]

theorem CanAdopt.not_above_of_detached (hCan : t.CanAdopt p next) :
    ¬ ParentMap.Ancestor (Function.update t.parent? old none) next p :=
  fun hUp => hCan.not_above (hUp.of_le ParentMap.le_of_update_none)

theorem Linked.replace (h : t.Linked strict) (hCan : t.CanAdopt p next)
    (hOld : old ∈ t.childrenOf p) (hOther : old ≠ next) :
    LinkForest strict
      (((t.moveTo p next).setChildren p (·.replace old next)).setParent old none).parent?
      (((t.moveTo p next).setChildren p (·.replace old next)).setParent old none).childrenOf := by
  rw [parent?_replace hCan (h.resolve.isSome_of_mem hOld) hOther]
  exact (h.forest.detach old).move hCan.ne hCan.not_above_of_detached
    (h.replace_perm hCan hOld hOther)

theorem Linked.links_remove (h : t.Linked strict) (hc : c ∈ t.childrenOf p) :
    ((t.setChildren p (·.erase c)).setParent c none).parent? = Function.update t.parent? c none ∧
      ((t.setChildren p (·.erase c)).setParent c none).childrenOf =
        fun x => (t.childrenOf x).erase c := by
  have hLeft : t.setChildren p (·.erase c) = t.leaveParent c := by
    rw [leaveParent, h.forest.parent_of_mem hc]
  rw [hLeft, parent?_setParent (isSome_get?_leaveParent.trans (h.resolve.isSome_of_mem hc)),
    parent?_leaveParent, childrenOf_setParent, childrenOf_leaveParent h]
  exact ⟨rfl, rfl⟩

theorem Linked.remove (h : t.Linked strict) (hc : c ∈ t.childrenOf p) :
    LinkForest strict ((t.setChildren p (·.erase c)).setParent c none).parent?
      ((t.setChildren p (·.erase c)).setParent c none).childrenOf := by
  rw [(h.links_remove hc).1, (h.links_remove hc).2]
  exact h.forest.detach c

theorem Linked.edited (h : t.Linked strict) (hEdit : t.Edited t') : t'.Linked strict where
  numbered := (h.rooted.edited hEdit).numbered
  resolve := (h.rooted.edited hEdit).resolve
  forest := by
    cases hEdit with
    | same => exact h.forest
    | place hCan hPerm => exact h.place hCan (hPerm _)
    | replace hCan hOld hOther => exact h.replace hCan hOld hOther
    | remove hc => exact h.remove hc

end Tree

end SemanticCore
