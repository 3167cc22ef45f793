import SemanticCore.Syntax.Traversal

/-!
# What a walk gathers

All walks over a subtree enter the same nodes. So what a visitor has gathered at the end can be told
from the list of the nodes, if at every node it can be told from the part of the list so far. This
needs nothing of the tree: where the walk fails, both fail in the same way.

* `Visitor.Mirrors`: one visitor keeps what can be told from what another keeps.
* `Tree.collect_eq`, `Tree.count_eq`: collecting and counting, in terms of the nodes entered.
-/

namespace SemanticCore

variable {σ τ α β : Type} {g : σ → τ}

/-- Of two visits that are the same otherwise, the second keeps what `g` tells from the state of the
first. -/
def Visit.Mirrors (g : σ → τ) (x : Visit σ α) (y : Visit τ α) : Prop :=
  ∀ s, y.run (g s) = (x.run s).map (Prod.map id g)

namespace Visit.Mirrors

theorem pure (a : α) : Mirrors g (Pure.pure a : Visit σ α) (Pure.pure a) := fun _ => rfl

theorem throw (e : SyntaxError) :
    Mirrors g (MonadExcept.throw e : Visit σ α) (MonadExcept.throw e) := fun _ => rfl

theorem lift (x : Except SyntaxError α) : Mirrors g (liftM x : Visit σ α) (liftM x) := by
  intro s
  cases x <;> rfl

theorem bind {x : Visit σ α} {y : Visit τ α} {k : α → Visit σ β} {k' : α → Visit τ β}
    (h : Mirrors g x y) (hNext : ∀ a, Mirrors g (k a) (k' a)) :
    Mirrors g (x >>= k) (y >>= k') := by
  intro s
  rw [StateT.run_bind, StateT.run_bind, h s]
  cases x.run s with
  | error e => rfl
  | ok r => exact hNext r.1 r.2

theorem forEach {f : NodeId → Visit σ Unit} {f' : NodeId → Visit τ Unit}
    (h : ∀ id, Mirrors g (f id) (f' id)) (ids : List NodeId) :
    Mirrors g (SemanticCore.forEach f ids) (SemanticCore.forEach f' ids) := by
  induction ids with
  | nil => exact .pure ()
  | cons id ids ih => exact (h id).bind fun _ => ih

end Visit.Mirrors

/-- One visitor answers as another one does, and keeps what `g` tells from what that one keeps. -/
structure Visitor.Mirrors (g : σ → τ) (v : Visitor (Visit σ)) (w : Visitor (Visit τ)) : Prop where
  enter : ∀ n, Visit.Mirrors g (v.enter n) (w.enter n)
  leave : ∀ n, Visit.Mirrors g (v.leave n) (w.leave n)

theorem Visitor.Mirrors.traverse {v : Visitor (Visit σ)} {w : Visitor (Visit τ)}
    (h : v.Mirrors g w) (t : Tree) (limit : Nat) (id : NodeId) :
    Visit.Mirrors g (SemanticCore.traverse (t.source σ) v limit id)
      (SemanticCore.traverse (t.source τ) w limit id) := by
  induction limit generalizing id with
  | zero => exact .throw _
  | succ limit ih =>
    refine (Visit.Mirrors.lift (t.node id)).bind fun n => (h.enter n).bind fun descend => ?_
    cases descend with
    | false => exact h.leave n
    | true => exact (Visit.Mirrors.forEach ih n.children).bind fun _ => h.leave n

namespace Tree

theorem visit_of_mirrors {v : Visitor (Visit σ)} {w : Visitor (Visit τ)} (h : v.Mirrors g w)
    (t : Tree) (root : NodeId) (s : σ) : t.visit root w (g s) = (t.visit root v s).map g := by
  rw [visit, visit, h.traverse t t.levels root s]
  cases (traverse (t.source σ) v t.levels root).run s <;> rfl

theorem mirrors_collector (kind : NodeKind) :
    (recorder fun _ => true).Mirrors (List.filter (·.kind == kind)) (collector kind) where
  enter n seen := by
    have hGather : (seen ++ [n]).filter (·.kind == kind) = if n.kind = kind
        then seen.filter (·.kind == kind) ++ [n] else seen.filter (·.kind == kind) := by
      by_cases hKind : n.kind = kind <;> simp [hKind]
    exact congrArg (fun found => Except.ok (true, found)) hGather.symm
  leave _ _ := rfl

theorem mirrors_counter : (recorder fun _ => true).Mirrors List.length counter where
  enter n seen := by
    have hLength : (seen ++ [n]).length = seen.length + 1 := List.length_append
    exact congrArg (fun k => Except.ok (true, k)) hLength.symm
  leave _ _ := rfl

/-- The nodes of a kind are gathered in the order in which they are entered. -/
theorem collect_eq (t : Tree) (root : NodeId) (kind : NodeKind) :
    t.collect root kind = (t.walk root fun _ => true).map (List.filter (·.kind == kind)) :=
  visit_of_mirrors (mirrors_collector kind) t root []

/-- Every node that is entered is counted. -/
theorem count_eq (t : Tree) (root : NodeId) :
    t.count root = (t.walk root fun _ => true).map List.length :=
  visit_of_mirrors mirrors_counter t root []

end Tree

end SemanticCore
