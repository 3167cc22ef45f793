import SemanticCore.Proofs.Syntax.Descent

/-!
# What a visitor gets to see

A visitor that leaves the tree as it is cannot steer a traversal but by what it answers when it
enters a node. So what it gets to see is determined by the tree and by these answers: a sequence of
nodes entered and left. A traversal is the same as running the hooks on this sequence, however the
nodes are looked up.

* `VisitEvent`: a hook that runs; `Tree.events`: all that run, in order.
* `Tree.liveSource`: the nodes of a tree that hooks can change.
* `Tree.Linked.run_traverse`: a traversal runs the hooks on the events.
-/

namespace SemanticCore

/-- A node is entered or left. -/
inductive VisitEvent where
  | enter (n : Node)
  | leave (n : Node)

namespace VisitEvent

def node : VisitEvent → Node
  | enter n => n
  | leave n => n

variable {S : Type} (v : Visitor (Visit S))

/-- The hook of a visitor that runs. -/
def fire : VisitEvent → Visit S Unit
  | enter n => v.enter n >>= fun _ => pure ()
  | leave n => v.leave n

/-- The hooks that run, one after the other. -/
def replay : List VisitEvent → Visit S Unit
  | [] => pure ()
  | e :: es => e.fire v >>= fun _ => replay es

theorem replay_append (es es' : List VisitEvent) :
    replay v (es ++ es') = replay v es >>= fun _ => replay v es' := by
  induction es with
  | nil => rw [List.nil_append, replay, pure_bind]
  | cons e es ih => rw [List.cons_append, replay, replay, ih, bind_assoc]

/-- The visitor that records what happens. -/
def tracer (descend : Node → Bool) : Visitor (Visit (List VisitEvent)) where
  enterNode := some fun n => do
    modifyThe (List VisitEvent) (· ++ [enter n])
    return descend n
  leaveNode := some fun n => modifyThe (List VisitEvent) (· ++ [leave n])

theorem run_replay_tracer (descend : Node → Bool) (es seen : List VisitEvent) :
    (replay (tracer descend) es).run seen = .ok ((), seen ++ es) := by
  induction es generalizing seen with
  | nil => rw [List.append_nil]; rfl
  | cons e es ih =>
    have hFire : (e.fire (tracer descend)).run seen = .ok ((), seen ++ [e]) := by
      cases e <;> rfl
    rw [replay, StateT.run_bind, hFire]
    exact (ih (seen ++ [e])).trans (by rw [List.append_assoc, List.singleton_append])

end VisitEvent

namespace Tree

/-! ## Events -/

/-- What happens at a node and at most `limit` levels below it, where `descend` is what is
answered when a node is entered. -/
def eventsWithin (t : Tree) (descend : Node → Bool) : Nat → NodeId → List VisitEvent
  | 0, _ => []
  | limit + 1, id =>
    match t.get? id with
    | none => []
    | some n =>
      .enter n :: ((if descend n then n.children.flatMap (t.eventsWithin descend limit) else []) ++
        [.leave n])

/-- What happens in a visit of a tree that does not change. -/
def events (t : Tree) (descend : Node → Bool) (root : NodeId) : List VisitEvent :=
  t.eventsWithin descend t.levels root

/-- What happens below a node. -/
def eventsBelow (t : Tree) (descend : Node → Bool) (n : Node) : List VisitEvent :=
  if descend n then n.children.flatMap (t.events descend) else []

/-- The nodes of a tree that is part of the state, so that hooks can change it. A node that is not
there any more stays as it was. -/
def liveSource (σ : Type) : NodeSource (Visit (Tree × σ)) where
  lookup id := do liftM ((← get).1.node id)
  current n := return ((← get).1.get? n.id).getD n
  tooDeep id := throw (.tooDeep id)

variable {t : Tree} {strict : Prop} {descend : Node → Bool} {root id : NodeId} {n : Node}

theorem eventsWithin_of_get? (hGet : t.get? id = some n) (limit : Nat) :
    t.eventsWithin descend (limit + 1) id =
      .enter n :: ((if descend n then (t.childrenOf id).flatMap (t.eventsWithin descend limit)
        else []) ++ [.leave n]) := by
  rw [eventsWithin, hGet, childrenOf_of_get? hGet]

theorem eventsWithin_of_none (hGet : t.get? id = none) (limit : Nat) :
    t.eventsWithin descend limit id = [] := by
  cases limit with
  | zero => rfl
  | succ limit => rw [eventsWithin, hGet]

theorem Linked.eventsWithin_eq (h : t.Linked strict) {limit : Nat} (hLimit : t.levels ≤ limit)
    (id : NodeId) : t.eventsWithin descend limit id = t.events descend id := by
  refine h.descend (motive := fun levels id => ∀ limit, levels ≤ limit →
    t.eventsWithin descend limit id = t.eventsWithin descend levels id) ?_ id limit hLimit
  intro levels id ih limit hLimit
  obtain ⟨limit, rfl⟩ := Nat.exists_eq_add_one_of_ne_zero (Nat.ne_zero_of_lt hLimit)
  cases hGet : t.get? id with
  | none => rw [eventsWithin_of_none hGet, eventsWithin_of_none hGet]
  | some n =>
    rw [eventsWithin_of_get? hGet, eventsWithin_of_get? hGet,
      List.flatMap_congr fun c hc => ih c hc limit (Nat.le_of_succ_le_succ hLimit)]

/-- A node is entered, what is below it comes if that is wanted, and it is left. -/
theorem Linked.events_eq (h : t.Linked strict) (hGet : t.get? id = some n) :
    t.events descend id = .enter n :: (t.eventsBelow descend n ++ [.leave n]) := by
  rw [← h.eventsWithin_eq (Nat.le_succ _) id, eventsWithin_of_get? hGet, childrenOf_of_get? hGet]
  rfl

theorem events_of_none (hGet : t.get? id = none) : t.events descend id = [] :=
  eventsWithin_of_none hGet _

end Tree

/-! ## Traversals -/

section

variable {S : Type} {source : NodeSource (Visit S)} {v : Visitor (Visit S)} {t : Tree}
  {I : S → Prop} {descend : Node → Bool} {strict : Prop}

/-- The parts of a traversal: a node is looked up and entered, its children are visited if that is
wanted, and it is left. -/
theorem traverse_succ (source : NodeSource (Visit S)) (v : Visitor (Visit S)) (limit : Nat)
    (id : NodeId) :
    traverse source v (limit + 1) id = source.lookup id >>= fun n => v.enter n >>= fun down =>
      (if down then source.current n >>= fun m => forEach (traverse source v limit) m.children
        else pure ()) >>= fun _ => source.current n >>= v.leave := by
  rw [traverse]
  refine bind_congr fun n => bind_congr fun down => ?_
  cases down with
  | false => rfl
  | true => exact (bind_assoc (m := Visit S) _ _ _).symm

/-- The nodes are looked up in a tree, as long as the state is as expected. -/
structure NodeSource.Reads (source : NodeSource (Visit S)) (t : Tree) (I : S → Prop) : Prop where
  lookup : ∀ id s, I s → (source.lookup id).run s = (t.node id).map fun n => (n, s)
  current : ∀ n s, t.get? n.id = some n → I s → (source.current n).run s = .ok (n, s)

/-- The hooks leave the state as expected, and those that enter a node answer what is given. -/
structure Visitor.Follows (v : Visitor (Visit S)) (descend : Node → Bool) (I : S → Prop) :
    Prop where
  enter : ∀ n s b s', I s → (v.enter n).run s = .ok (b, s') → b = descend n ∧ I s'
  leave : ∀ n s s', I s → (v.leave n).run s = .ok ((), s') → I s'

theorem VisitEvent.follows_tracer (descend : Node → Bool) :
    (tracer descend).Follows descend fun _ => True where
  enter n s b s' _ hRun := by
    cases hRun
    exact ⟨rfl, trivial⟩
  leave _ _ _ _ _ := trivial

namespace Visitor.Follows

open VisitEvent

variable (hv : v.Follows descend I)

include hv

theorem keeps_fire {e : VisitEvent} {s s' : S} (hs : I s) (hRun : (e.fire v).run s = .ok ((), s')) :
    I s' := by
  cases e with
  | leave n => exact hv.leave n s s' hs hRun
  | enter n =>
    rw [fire, StateT.run_bind] at hRun
    obtain ⟨result, hEnter, hPure⟩ := bind_eq_ok.mp hRun
    cases hPure
    exact (hv.enter n s result.1 _ hs hEnter).2

theorem keeps_replay {es : List VisitEvent} {s s' : S} (hs : I s)
    (hRun : (replay v es).run s = .ok ((), s')) : I s' := by
  induction es generalizing s with
  | nil =>
    cases hRun
    exact hs
  | cons e es ih =>
    rw [replay, StateT.run_bind] at hRun
    obtain ⟨result, hFirst, hRest⟩ := bind_eq_ok.mp hRun
    exact ih (hv.keeps_fire hs hFirst) hRest

/-- What comes after a part of a visit is compared in the states to which the part can lead. -/
theorem run_bind_congr {es : List VisitEvent} {x y z : Visit S Unit} {s : S} (hs : I s)
    (hx : x.run s = (replay v es).run s) (hyz : ∀ s', I s' → y.run s' = z.run s') :
    (x >>= fun _ => y).run s = (replay v es >>= fun _ => z).run s := by
  rw [StateT.run_bind, StateT.run_bind, hx]
  cases hRun : (replay v es).run s with
  | error e => rfl
  | ok result => exact hyz result.2 (hv.keeps_replay hs hRun)

theorem run_forEach {f : NodeId → Visit S Unit} {es : NodeId → List VisitEvent} {ids : List NodeId}
    (hf : ∀ id ∈ ids, ∀ s, I s → (f id).run s = (replay v (es id)).run s) :
    ∀ s, I s → (forEach f ids).run s = (replay v (ids.flatMap es)).run s := by
  induction ids with
  | nil => exact fun _ _ => rfl
  | cons id ids ih =>
    intro s hs
    rw [forEach, List.flatMap_cons, replay_append]
    exact hv.run_bind_congr hs (hf id List.mem_cons_self s hs)
      (ih fun k hk => hf k (List.mem_cons_of_mem _ hk))

end Visitor.Follows

namespace Tree

open VisitEvent

/-- A traversal does what the hooks do on the events, one after the other. -/
theorem Linked.run_traverse (h : t.Linked strict) (hSource : source.Reads t I)
    (hv : v.Follows descend I) {limit : Nat} (hLimit : t.levels ≤ limit) (root : NodeId) {s : S}
    (hs : I s) :
    (traverse source v limit root).run s =
      t.node root >>= fun _ => (replay v (t.events descend root)).run s := by
  rw [← h.eventsWithin_eq hLimit]
  refine h.descend (motive := fun levels id => ∀ limit, levels ≤ limit → ∀ s, I s →
    (traverse source v limit id).run s =
      t.node id >>= fun _ => (replay v (t.eventsWithin descend limit id)).run s)
    ?_ root limit hLimit s hs
  intro levels id ih limit hLimit s hs
  obtain ⟨limit, rfl⟩ := Nat.exists_eq_add_one_of_ne_zero (Nat.ne_zero_of_lt hLimit)
  rw [traverse_succ, StateT.run_bind, hSource.lookup id s hs]
  cases hGet : t.get? id with
  | none =>
    rw [node, hGet]
    rfl
  | some n =>
    have hNode : t.get? n.id = some n := by rw [h.numbered.id_of_get? hGet, hGet]
    have hBelow : ∀ s, I s → (forEach (traverse source v limit) n.children).run s =
        (replay v ((t.childrenOf id).flatMap (t.eventsWithin descend limit))).run s := by
      rw [← childrenOf_of_get? hGet]
      refine hv.run_forEach fun c hc s hs => ?_
      obtain ⟨m, hChild⟩ := Option.isSome_iff_exists.mp (h.resolve.isSome_of_mem hc)
      rw [ih c hc limit (Nat.le_of_succ_le_succ hLimit) s hs, node_of_get? hChild]
      rfl
    rw [node_of_get? hGet, eventsWithin_of_get? hGet, Except.map, ok_bind, ok_bind, replay, fire,
      bind_assoc, StateT.run_bind, StateT.run_bind]
    cases hEnter : (v.enter n).run s with
    | error e => rfl
    | ok result =>
      obtain ⟨down, s'⟩ := result
      obtain ⟨rfl, hs'⟩ := hv.enter n s down s' hs hEnter
      rw [ok_bind, ok_bind, pure_bind, replay_append]
      refine hv.run_bind_congr hs' ?_ fun s hs => ?_
      · cases descend n with
        | false => rfl
        | true =>
          rw [if_pos rfl, if_pos rfl, StateT.run_bind, hSource.current n s' hNode hs', ok_bind]
          exact hBelow s' hs'
      · rw [StateT.run_bind, hSource.current n s hNode hs, ok_bind, replay, replay, fire,
          bind_pure_unit]

theorem reads_source (t : Tree) (σ : Type) : (t.source σ).Reads t fun _ => True where
  lookup id s _ := by
    show (liftM (t.node id) : Visit σ Node).run s = _
    cases t.node id <;> rfl
  current _ _ _ _ := rfl

theorem reads_liveSource (t : Tree) (σ : Type) : (liveSource σ).Reads t fun s => s.1 = t where
  lookup id s hs := by
    show (liftM (s.1.node id) : Visit (Tree × σ) Node).run s = _
    rw [hs]
    cases t.node id <;> rfl
  current n s hGet hs := by
    show Except.ok ((s.1.get? n.id).getD n, s) = _
    rw [hs, hGet, Option.getD_some]

end Tree

end

end SemanticCore
