import SemanticCore.Proofs.Syntax.Ancestry
import SemanticCore.Proofs.Syntax.Gathering
import SemanticCore.Syntax.Printer

/-!
# The way down from a node

A traversal follows the lists of children and stops at a limit. Where every child has the node of
the list as its parent, each step down makes the way up one node longer, and no way up is longer
than the tree is large. So the limit is never reached, and what a traversal gives does not depend on
it.

* `Tree.Below`: one node is met on the way down from another.
* `Tree.Linked.descend`: what holds of a node if it holds of its children holds of every node, as
  far down as the tree has levels.
* `Tree.Linked.traversalsEnd`: no traversal of a linked tree reaches the limit.
-/

namespace SemanticCore

namespace Tree

variable {t : Tree} {strict : Prop} {id c p : NodeId} {n : Node}

/-- A node is met on the way down from another. -/
def Below (t : Tree) (a b : NodeId) : Prop := Relation.TransGen (fun c p => c ∈ t.childrenOf p) a b

/-- The ways down from the nodes of a tree end, with all that goes down. -/
structure TraversalsEnd (t : Tree) : Prop where
  /-- Following the children of a node never leads back to it. -/
  acyclic : ∀ id, ¬ t.Below id id
  /-- What a visitor does is the same for every limit that is high enough, whatever is done at the
  limit. -/
  visit : ∀ {σ : Type} (v : Visitor (Visit σ)) (root : NodeId) (limit : Nat)
    (tooDeep : NodeId → Visit σ Unit), t.levels ≤ limit →
    traverse { t.source σ with tooDeep } v limit root = traverse (t.source σ) v t.levels root
  walk : ∀ root descend, (t.get? root).isSome → ∃ ns, t.walk root descend = .ok ns
  collect : ∀ root kind, (t.get? root).isSome → ∃ ns, t.collect root kind = .ok ns
  find : ∀ root kind, (t.get? root).isSome → ∃ n, t.find? root kind = .ok n
  count : ∀ root, (t.get? root).isSome → ∃ k, t.count root = .ok k
  print : ∀ root id, t.print root ≠ .error (.tooDeep id)

namespace Linked

theorem ancestor_of_below (h : t.Linked strict) (hBelow : t.Below c p) : t.Ancestor p c := by
  induction hBelow with
  | single hMem => exact ParentMap.ancestor_of_edge (h.forest.parent_of_mem hMem)
  | tail _ hMem ih => exact (ParentMap.ancestor_of_edge (h.forest.parent_of_mem hMem)).trans ih

theorem not_below_self (h : t.Linked strict) (id : NodeId) : ¬ t.Below id id :=
  fun hCycle => h.forest.grounded.not_ancestor_self id (h.ancestor_of_below hCycle)

/-- What a node inherits from its children, with one level more, holds of every node with as many
levels as the tree has. -/
theorem descend (h : t.Linked strict) {motive : Nat → NodeId → Prop}
    (step : ∀ limit id, (∀ c ∈ t.childrenOf id, motive limit c) → motive (limit + 1) id)
    (root : NodeId) : motive t.levels root := by
  -- the nodes above and the levels left are together more than the tree has nodes
  have hLevels : ∀ limit id ns, t.ParentChain (t.parent? id) ns → t.size < limit + ns.length →
      motive limit id := by
    intro limit
    induction limit with
    | zero =>
      intro id ns hChain hLimit
      have hLength := hChain.length_le h.numbered h.forest.grounded
      omega
    | succ limit ih =>
      intro id ns hChain hLimit
      refine step limit id fun c hc => ?_
      obtain ⟨n, hGet⟩ := Option.isSome_iff_exists.mp (isSome_of_mem_childrenOf hc)
      refine ih c (n :: ns) ?_ (by rw [List.length_cons]; omega)
      rw [h.forest.parent_of_mem hc]
      exact .link hGet (parent?_of_get? hGet ▸ hChain)
  obtain ⟨ns, hChain⟩ := h.rooted.exists_parentChain root
  exact hLevels t.levels root ns hChain (by rw [levels]; omega)

end Linked

end Tree

/-! ## Errors of visitors -/

namespace Visit

variable {σ α β : Type} {expected : SyntaxError → Prop}

/-- A visit gives none but the expected errors. -/
def Fails (expected : SyntaxError → Prop) (x : Visit σ α) : Prop :=
  ∀ s e, x.run s = .error e → expected e

theorem fails_pure (a : α) : Fails expected (pure a : Visit σ α) := by
  intro s e hError
  cases hError

theorem fails_bind {x : Visit σ α} {f : α → Visit σ β} (hx : x.Fails expected)
    (hf : ∀ a, (f a).Fails expected) : (x >>= f).Fails expected := by
  intro s e hError
  rw [StateT.run_bind] at hError
  cases hRun : x.run s with
  | error e' =>
    rw [hRun] at hError
    cases hError
    exact hx s _ hRun
  | ok result =>
    rw [hRun] at hError
    exact hf result.1 result.2 e hError

theorem fails_lift {x : Except SyntaxError α} (h : ∀ e, x = .error e → expected e) :
    Fails expected (liftM x : Visit σ α) := by
  intro s e hError
  cases x with
  | error e' =>
    cases hError
    exact h _ rfl
  | ok a => cases hError

theorem fails_forEach {f : NodeId → Visit σ Unit} {ids : List NodeId}
    (h : ∀ id ∈ ids, (f id).Fails expected) : (forEach f ids).Fails expected := by
  induction ids with
  | nil => exact fails_pure ()
  | cons id ids ih =>
    exact fails_bind (h id List.mem_cons_self) fun _ =>
      ih fun k hk => h k (List.mem_cons_of_mem _ hk)

end Visit

/-! ## Visitors -/

namespace Tree

open Visit

section Traversal

variable {t : Tree} {strict : Prop} {id : NodeId} {n : Node} {σ : Type} {v : Visitor (Visit σ)}
  {tooDeep : NodeId → Visit σ Unit} {limit : Nat}

theorem traverse_of_get? (hGet : t.get? id = some n) :
    traverse { t.source σ with tooDeep } v (limit + 1) id = (do
      if ← v.enter n then
        forEach (traverse { t.source σ with tooDeep } v limit) (t.childrenOf id)
      v.leave n) := by
  rw [childrenOf_of_get? hGet, traverse]
  simp only [source, node_of_get? hGet]
  rfl

theorem traverse_of_get?_none (hGet : t.get? id = none) :
    traverse { t.source σ with tooDeep } v (limit + 1) id =
      liftM (t.node id) >>= fun _ => pure () := by
  rw [traverse]
  simp only [source, node, hGet]
  rfl

theorem forEach_congr {f g : NodeId → Visit σ Unit} {ids : List NodeId}
    (h : ∀ id ∈ ids, f id = g id) : forEach f ids = forEach g ids := by
  induction ids with
  | nil => rfl
  | cons id ids ih =>
    rw [forEach, forEach, h id List.mem_cons_self, ih fun k hk => h k (List.mem_cons_of_mem _ hk)]

theorem Linked.traverse_eq (h : t.Linked strict) (v : Visitor (Visit σ)) (root : NodeId)
    (tooDeep : NodeId → Visit σ Unit) (hLimit : t.levels ≤ limit) :
    traverse { t.source σ with tooDeep } v limit root = traverse (t.source σ) v t.levels root := by
  refine h.descend (motive := fun levels id => ∀ limit, levels ≤ limit →
    traverse { t.source σ with tooDeep } v limit id = traverse (t.source σ) v levels id)
    ?_ root limit hLimit
  intro levels id ih limit hLimit
  obtain ⟨limit, rfl⟩ := Nat.exists_eq_add_one_of_ne_zero (Nat.ne_zero_of_lt hLimit)
  have hBelow : ∀ c ∈ t.childrenOf id,
      traverse { t.source σ with tooDeep } v limit c = traverse (t.source σ) v levels c :=
    fun c hc => ih c hc limit (Nat.le_of_succ_le_succ hLimit)
  cases hGet : t.get? id with
  | none => exact (traverse_of_get?_none hGet).trans (traverse_of_get?_none hGet).symm
  | some n =>
    rw [traverse_of_get? hGet, forEach_congr hBelow]
    exact (traverse_of_get? hGet).symm

/-- If every error that the hooks give is an expected one, so is every error of a traversal. -/
theorem Linked.traverse_fails (h : t.Linked strict) {expected : SyntaxError → Prop}
    (hEnter : ∀ n, (v.enter n).Fails expected) (hLeave : ∀ n, (v.leave n).Fails expected)
    (root : NodeId) (hRoot : t.get? root = none → expected (.unknownNode root)) :
    (traverse (t.source σ) v t.levels root).Fails expected := by
  refine h.descend (motive := fun levels id => (t.get? id = none → expected (.unknownNode id)) →
    (traverse (t.source σ) v levels id).Fails expected) ?_ root hRoot
  intro levels id ih hId
  cases hGet : t.get? id with
  | none =>
    rw [traverse_of_get?_none hGet]
    refine fails_bind (fails_lift fun e hError => ?_) fun _ => fails_pure ()
    rw [node, hGet] at hError
    cases hError
    exact hId hGet
  | some n =>
    rw [traverse_of_get? hGet]
    refine fails_bind (hEnter n) fun descend => ?_
    have hBelow : (forEach (traverse (t.source σ) v levels) (t.childrenOf id)).Fails expected := by
      refine fails_forEach fun c hc => ih c hc fun hNone => ?_
      have hSome := h.resolve.isSome_of_mem hc
      rw [hNone] at hSome
      cases hSome
    cases descend with
    | false => exact hLeave n
    | true => exact fails_bind hBelow fun _ => hLeave n

end Traversal

/-! ## What is computed by going down -/

theorem exists_firstOf {search : NodeId → Except SyntaxError (Option Node)} {ids : List NodeId}
    (h : ∀ id ∈ ids, ∃ n, search id = .ok n) : ∃ n, firstOf search ids = .ok n := by
  induction ids with
  | nil => exact ⟨none, rfl⟩
  | cons id ids ih =>
    obtain ⟨found, hFound⟩ := h id List.mem_cons_self
    rw [firstOf, hFound]
    cases found with
    | some n => exact ⟨some n, rfl⟩
    | none => exact ih fun k hk => h k (List.mem_cons_of_mem _ hk)

theorem header_ne_tooDeep (t : Tree) (n : Node) (id : NodeId) :
    t.header n ≠ .error (.tooDeep id) := by
  have hWithout : n.kind.showWithout ≠ .error (.tooDeep id) := by
    cases n.kind <;> exact fun hError => nomatch hError
  have hShow : n.payload.show ≠ .error (.tooDeep id) := by
    cases n.payload with
    | char code =>
      rw [Payload.show]
      cases charOfCode? code <;> exact fun hError => nomatch hError
    | _ => exact fun hError => nomatch hError
  have hPayload : n.showPayload ≠ .error (.tooDeep id) := by
    unfold Node.showPayload
    split
    · exact hWithout
    · split
      · exact hWithout
      · exact fun hError => nomatch hError
    · exact hShow
  rw [header]
  cases hText : n.showPayload with
  | error e =>
    rintro hError
    cases hError
    exact hPayload hText
  | ok text => exact fun hError => nomatch hError

namespace Linked

variable {t : Tree} {strict : Prop} (h : t.Linked strict) {root : NodeId}
  (hRoot : (t.get? root).isSome)

include h hRoot

theorem exists_walk (descend : Node → Bool) : ∃ ns, t.walk root descend = .ok ns := by
  have hFails : (traverse (t.source _) (recorder descend) t.levels root).Fails fun _ => False :=
    h.traverse_fails (fun n s e hError => by cases hError) (fun n s e hError => by cases hError)
      root fun hNone => by simp [hNone] at hRoot
  cases hRun : (traverse (t.source (List Node)) (recorder descend) t.levels root).run [] with
  | error e => exact (hFails _ e hRun).elim
  | ok result => exact ⟨result.2, by rw [walk, visit, hRun]; rfl⟩

theorem exists_find? (kind : NodeKind) : ∃ n, t.find? root kind = .ok n := by
  refine h.descend (motive := fun levels id => (t.get? id).isSome →
    ∃ n, t.findWithin kind levels id = .ok n) ?_ root hRoot
  intro levels id ih hId
  obtain ⟨n, hGet⟩ := Option.isSome_iff_exists.mp hId
  obtain ⟨found, hFound⟩ := exists_firstOf fun c hc => ih c hc (h.resolve.isSome_of_mem hc)
  rw [childrenOf_of_get? hGet] at hFound
  rw [findWithin, node_of_get? hGet]
  by_cases hKind : n.kind = kind
  · exact ⟨some n, if_pos hKind⟩
  · exact ⟨found, (if_neg hKind).trans hFound⟩

end Linked

variable {t : Tree} {strict : Prop}

theorem Linked.print_ne_tooDeep (h : t.Linked strict) (root id : NodeId) :
    t.print root ≠ .error (.tooDeep id) := by
  have hFails : (traverse (t.source _) t.printer t.levels root).Fails (· ≠ .tooDeep id) := by
    refine h.traverse_fails (fun n => ?_) (fun n s e hError => by cases hError) root
      fun _ hDeep => by cases hDeep
    exact fails_bind (fails_lift fun e hError hDeep => header_ne_tooDeep t n id (hDeep ▸ hError))
      fun _ s e hError => by cases hError
  intro hPrint
  cases hRun : (traverse (t.source Printed) t.printer t.levels root).run {} with
  | error e =>
    rw [print, visit, hRun] at hPrint
    cases hPrint
    exact hFails _ _ hRun rfl
  | ok result =>
    rw [print, visit, hRun] at hPrint
    cases hPrint

/-- No traversal of a linked tree comes to its limit. -/
theorem Linked.traversalsEnd (h : t.Linked strict) : t.TraversalsEnd where
  acyclic := h.not_below_self
  visit v root _ tooDeep hLimit := h.traverse_eq v root tooDeep hLimit
  walk _ descend hRoot := h.exists_walk hRoot descend
  collect root kind hRoot := by
    obtain ⟨ns, hWalk⟩ := h.exists_walk hRoot fun _ => true
    exact ⟨_, by rw [Tree.collect_eq, hWalk]; rfl⟩
  find _ kind hRoot := h.exists_find? hRoot kind
  count root hRoot := by
    obtain ⟨ns, hWalk⟩ := h.exists_walk hRoot fun _ => true
    exact ⟨_, by rw [Tree.count_eq, hWalk]; rfl⟩
  print := h.print_ne_tooDeep

end Tree

end SemanticCore
