import Mathlib.Data.List.Perm.Basic
import Mathlib.Logic.Relation
import Mathlib.Order.WellFounded

/-!
# Forests of parent and child links

A forest is kept in two ways at once: every vertex knows its parent, and every vertex has a list of
its children. `LinkForest` says that children know the vertex in whose list they stand, that no
child stands twice in a list, and that every chain of parents ends; in a strict forest whoever has a
parent is one of its children. It is kept by the two changes from which all edits are composed:

* `LinkForest.detach`: a vertex loses its parent.
* `LinkForest.attach`: a vertex without a parent goes under one that is not below it.

The order in which children stand does not matter here, so lists of children are compared up to
permutation.
-/

namespace SemanticCore

/-- The parent of each vertex that has one. -/
abbrev ParentMap (α : Type) := α → Option α

namespace ParentMap

variable {α : Type} {f g : ParentMap α} {a b c p x : α}

def Edge (f : ParentMap α) (a b : α) : Prop := f b = some a

def Ancestor (f : ParentMap α) (a b : α) : Prop := Relation.TransGen f.Edge a b

def Grounded (f : ParentMap α) : Prop := WellFounded f.Edge

theorem ancestor_of_edge (h : f b = some a) : f.Ancestor a b := Relation.TransGen.single h

theorem Ancestor.trans (h₁ : f.Ancestor a b) (h₂ : f.Ancestor b c) : f.Ancestor a c :=
  Relation.TransGen.trans h₁ h₂

theorem ancestor_iff : f.Ancestor a b ↔ ∃ p, f b = some p ∧ (a = p ∨ f.Ancestor a p) := by
  constructor
  · intro h
    cases h with
    | single edge => exact ⟨a, edge, Or.inl rfl⟩
    | tail path edge => exact ⟨_, edge, Or.inr path⟩
  · rintro ⟨p, hp, rfl | h⟩
    · exact ancestor_of_edge hp
    · exact Relation.TransGen.tail h hp

theorem Ancestor.of_le (hLe : ∀ b a, f b = some a → g b = some a) (h : f.Ancestor a b) :
    g.Ancestor a b :=
  Relation.TransGen.mono (fun _ _ edge => hLe _ _ edge) _ _ h

theorem Grounded.not_ancestor_self (h : f.Grounded) (a : α) : ¬ f.Ancestor a a :=
  fun hCycle => (WellFounded.transGen h).irrefl.irrefl a hCycle

/-- Fewer links ground every chain that was grounded. -/
theorem Grounded.of_le (h : g.Grounded) (hLe : ∀ b a, f b = some a → g b = some a) : f.Grounded :=
  Subrelation.wf (fun edge => hLe _ _ edge) h

/-! ## What is at or above a vertex -/

/-- A vertex is another or above it. -/
def AtOrAbove (f : ParentMap α) (a x : α) : Prop := a = x ∨ f.Ancestor a x

theorem AtOrAbove.trans (hab : f.AtOrAbove a b) (hbx : f.AtOrAbove b x) : f.AtOrAbove a x := by
  rcases hab with rfl | hab
  · exact hbx
  · rcases hbx with rfl | hbx
    · exact .inr hab
    · exact .inr (hab.trans hbx)

theorem ancestor_iff_atOrAbove : f.Ancestor a x ↔ ∃ p, f x = some p ∧ f.AtOrAbove a p :=
  ancestor_iff

theorem Grounded.not_atOrAbove (h : f.Grounded) (hAbove : f.Ancestor a x) : ¬ f.AtOrAbove x a := by
  rintro (rfl | hBack)
  · exact h.not_ancestor_self x hAbove
  · exact h.not_ancestor_self a (hAbove.trans hBack)

/-- The vertices above one are above each other. -/
theorem Grounded.atOrAbove_total (h : f.Grounded) (ha : f.AtOrAbove a x) (hb : f.AtOrAbove b x) :
    f.AtOrAbove a b ∨ f.AtOrAbove b a := by
  induction x using h.induction with
  | _ x ih =>
    rcases ha with rfl | ha
    · exact .inr hb
    · rcases hb with rfl | hb
      · exact .inl (.inr ha)
      · obtain ⟨p, hp, ha⟩ := ancestor_iff_atOrAbove.mp ha
        obtain ⟨q, hq, hb⟩ := ancestor_iff_atOrAbove.mp hb
        obtain rfl := Option.some.inj (hp.symm.trans hq)
        exact ih p hp ha hb

/-- Two children of one vertex have nothing below them in common. -/
theorem Grounded.eq_of_siblings (h : f.Grounded) (hpa : f a = some p) (hpb : f b = some p)
    (ha : f.AtOrAbove a x) (hb : f.AtOrAbove b x) : a = b := by
  -- a sibling that is above another would be above its own parent
  have hSibling : ∀ {a b : α}, f a = some p → f b = some p → f.AtOrAbove a b → a = b := by
    intro a b hpa hpb hab
    refine hab.resolve_right fun hAbove => ?_
    obtain ⟨q, hq, hUp⟩ := ancestor_iff_atOrAbove.mp hAbove
    obtain rfl := Option.some.inj (hpb.symm.trans hq)
    exact h.not_atOrAbove (ancestor_of_edge hpa) hUp
  rcases h.atOrAbove_total ha hb with hab | hba
  · exact hSibling hpa hpb hab
  · exact (hSibling hpb hpa hba).symm

/-! ## Changes of parents -/

variable [DecidableEq α]

theorem le_of_update_none (b a : α) (h : Function.update f c none b = some a) : f b = some a := by
  by_cases hbc : b = c
  · subst hbc
    simp at h
  · rwa [Function.update_of_ne hbc] at h

/-- A vertex can go under one that it is not above: the chains that pass through it go on along the
chain of its new parent, which does not come back to it. -/
theorem Grounded.attach (h : f.Grounded) (hNe : c ≠ p) (hAbove : ¬ f.Ancestor c p) :
    Grounded (Function.update f c (some p)) := by
  have hApart : ∀ x, x ≠ c → ¬ f.Ancestor c x → Acc (Edge (Function.update f c (some p))) x := by
    intro x
    induction x using h.induction with
    | _ x ih =>
      intro hxc hcx
      refine Acc.intro x fun y hy => ?_
      have hy' : f x = some y := by rwa [Edge, Function.update_of_ne hxc] at hy
      refine ih y hy' ?_ fun hcy => hcx (hcy.trans (ancestor_of_edge hy'))
      rintro rfl
      exact hcx (ancestor_of_edge hy')
  have hMoved : Acc (Edge (Function.update f c (some p))) c := by
    refine Acc.intro c fun y hy => ?_
    rw [Edge, Function.update_self, Option.some.injEq] at hy
    exact hy ▸ hApart p hNe.symm hAbove
  refine ⟨fun x => ?_⟩
  induction x using h.induction with
  | _ x ih =>
    by_cases hxc : x = c
    · exact hxc ▸ hMoved
    · refine Acc.intro x fun y hy => ih y ?_
      rwa [Edge, Function.update_of_ne hxc] at hy

/-- What is above a vertex stays above it when it goes elsewhere itself, as long as the way does not
pass through it. -/
theorem Ancestor.update (h : f.Ancestor c b) (hNe : b ≠ c) :
    Ancestor (Function.update f c (some p)) c b := by
  induction h with
  | single edge => exact ancestor_of_edge (by rwa [Function.update_of_ne hNe])
  | @tail a b _ edge ih =>
    have hEdge : Function.update f c (some p) b = some a := by rwa [Function.update_of_ne hNe]
    by_cases hac : a = c
    · exact ancestor_of_edge (hac ▸ hEdge)
    · exact (ih hac).trans (ancestor_of_edge hEdge)

/-- A changed link grounds every chain unless it closes a cycle. -/
theorem Grounded.update (h : f.Grounded)
    (hAcyclic : ∀ a, ¬ Ancestor (Function.update f c (some p)) a a) :
    Grounded (Function.update f c (some p)) := by
  have hUp : Ancestor (Function.update f c (some p)) p c :=
    ancestor_of_edge (Function.update_self c (some p) f)
  have hNe : c ≠ p := by
    rintro rfl
    exact hAcyclic c hUp
  exact h.attach hNe fun hAbove => hAcyclic p (hUp.trans (hAbove.update hNe.symm))

end ParentMap

/-- Lists of children in which each child stands once and has the node of the list as its parent.
A strict forest has no other parent links. -/
structure LinkForest {α : Type} (strict : Prop) (parent : ParentMap α) (children : α → List α) :
    Prop where
  parent_of_mem : ∀ {p c}, c ∈ children p → parent c = some p
  mem_of_parent : strict → ∀ {p c}, parent c = some p → c ∈ children p
  nodup_children : ∀ p, (children p).Nodup
  grounded : parent.Grounded

namespace LinkForest

variable {α : Type} {strict : Prop} {parent : ParentMap α} {children children' : α → List α}
  {c p : α}

theorem empty : LinkForest strict (fun _ : α => none) fun _ => [] where
  parent_of_mem := by simp
  mem_of_parent := by simp
  nodup_children := by simp
  grounded := ⟨fun x => Acc.intro x fun _ hy => by cases hy⟩

theorem mem_children_iff (h : LinkForest True parent children) (p c : α) :
    c ∈ children p ↔ parent c = some p :=
  ⟨h.parent_of_mem, h.mem_of_parent trivial⟩

theorem not_mem_children (h : LinkForest strict parent children) (hRoot : parent c = none) (p : α) :
    c ∉ children p := by
  intro hMem
  rw [h.parent_of_mem hMem] at hRoot
  cases hRoot

variable [DecidableEq α]

/-- A vertex that loses its parent leaves the only list in which it can stand. -/
theorem detach (h : LinkForest strict parent children) (c : α) :
    LinkForest strict (Function.update parent c none) fun p => (children p).erase c where
  parent_of_mem := by
    intro p x hMem
    obtain ⟨hNe, hMem⟩ := (h.nodup_children p).mem_erase_iff.mp hMem
    rw [Function.update_of_ne hNe]
    exact h.parent_of_mem hMem
  mem_of_parent := by
    intro hStrict p x hParent
    have hNe : x ≠ c := by
      rintro rfl
      simp at hParent
    rw [Function.update_of_ne hNe] at hParent
    exact (List.mem_erase_of_ne hNe).mpr (h.mem_of_parent hStrict hParent)
  nodup_children p := (h.nodup_children p).erase c
  grounded := h.grounded.of_le ParentMap.le_of_update_none

/-- A vertex without a parent goes under one that is not below it. -/
theorem attach (h : LinkForest strict parent children) (hRoot : parent c = none) (hNe : c ≠ p)
    (hAbove : ¬ parent.Ancestor c p)
    (hPerm : ∀ x, (children' x).Perm (if x = p then c :: children x else children x)) :
    LinkForest strict (Function.update parent c (some p)) children' where
  parent_of_mem := by
    intro q x hMem
    rw [(hPerm q).mem_iff] at hMem
    by_cases hxc : x = c
    · subst hxc
      have hNot := h.not_mem_children hRoot q
      by_cases hqp : q = p
      · rw [hqp, Function.update_self]
      · rw [if_neg hqp] at hMem
        exact absurd hMem hNot
    · rw [Function.update_of_ne hxc]
      apply h.parent_of_mem
      split at hMem
      · exact (List.mem_cons.mp hMem).resolve_left hxc
      · exact hMem
  mem_of_parent := by
    intro hStrict q x hParent
    rw [(hPerm q).mem_iff]
    by_cases hxc : x = c
    · subst hxc
      rw [Function.update_self, Option.some.injEq] at hParent
      simp [hParent]
    · rw [Function.update_of_ne hxc] at hParent
      have hMem := h.mem_of_parent hStrict hParent
      split
      · exact List.mem_cons_of_mem _ hMem
      · exact hMem
  nodup_children q := by
    rw [(hPerm q).nodup_iff]
    split
    · exact List.nodup_cons.mpr ⟨h.not_mem_children hRoot q, h.nodup_children q⟩
    · exact h.nodup_children q
  grounded := h.grounded.attach hNe hAbove

/-- A vertex moves from its previous parent, if it has one, under another. -/
theorem move (h : LinkForest strict parent children) (hNe : c ≠ p) (hAbove : ¬ parent.Ancestor c p)
    (hPerm : ∀ x, (children' x).Perm
      (if x = p then c :: (children x).erase c else (children x).erase c)) :
    LinkForest strict (Function.update parent c (some p)) children' := by
  have hMoved := (h.detach c).attach (Function.update_self c none parent) hNe
    (fun hAnc => hAbove (hAnc.of_le ParentMap.le_of_update_none)) hPerm
  rwa [Function.update_idem] at hMoved

end LinkForest

end SemanticCore
