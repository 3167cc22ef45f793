import SemanticCore.Proofs.Arena.PoolHistory
import SemanticCore.Proofs.Context.Isolation

/-!
# Handles of objects and of nodes

The handles that a pool gives are pairwise different, however often its arena is emptied meanwhile,
and a number finds an object exactly if it is the handle of one that is still there. The nodes of a
context are kept in such a pool. So the id of a node is given to no other node as long as the
context is used.

* `Context.Leads.made`: the ids that were given stay given.
* `Context.NodesSound`: what holds of the ids of the nodes of a context.
* `handles_sound`: the handles of pools and of the nodes of contexts.
-/

namespace SemanticCore

namespace Context

variable {o : ContextOptions} {fresh c later : Context} {ids : List NodeId}

/-- Whatever is done with a context, the ids that were given stay given. -/
theorem Leads.made (h : c.Leads later) (hMade : c.tree.Made ids) :
    ∃ more, later.tree.Made (ids ++ more) := by
  induction h with
  | refl => exact ⟨[], (List.append_nil ids).symm ▸ hMade⟩
  | @apply c _ op ih =>
    cases op with
    | strings op =>
      rw [ContextOp.apply, op.apply_rest]
      exact ih
    | build form location => exact (Tree.Made.form ids).keeps_build form _ c.tree ih
    | edit e =>
      have hEdit := e.keeps_apply (Tree.Made.edit ids) ih
      rw [ContextOp.apply, Context.edit]
      split
      · rename_i hOk
        exact hEdit _ hOk
      · exact ih
    | symbols op => cases op <;> exact ih
    | scopes op =>
      cases op with
      | within i action =>
        rw [ContextOp.apply, ScopeOp.apply]
        split <;> exact ih
      | _ => exact ih
    | log op => cases op <;> exact ih
    | reset =>
      obtain ⟨more, hMore⟩ := ih
      obtain ⟨x, -, hReset⟩ := c.exists_reset
      rw [ContextOp.apply, hReset]
      exact ⟨more, hMore.release⟩
    | _ => exact ih
  | resetArena _ ih => exact ih.imp fun _ hMore => hMore.release
  | clearArena _ ih => exact ih.imp fun _ hMore => hMore.release
  | _ => assumption

theorem Leads.ops (h : fresh.Leads c) (ops : List ContextOp) :
    fresh.Leads (ops.foldl (fun c op => (op.apply c).2) c) := by
  induction ops generalizing c with
  | nil => exact h
  | cons op rest ih => exact ih (h.apply op)

/-- What holds of the ids of nodes: every node is found under its own, the ids that were given are
pairwise different, and they stay given whatever is done with the context. The last two hold of the
double-precision computations. -/
structure NodesSound (c : Context) : Prop where
  node_id : ∀ n ∈ c.tree.nodes, c.tree.node n.id = .ok n
  made : ∃ ids, c.tree.Made ids
  distinct : ∀ ids, c.tree.Made ids → ids.Nodup
  id_mem : ∀ ids, c.tree.Made ids → ∀ n ∈ c.tree.nodes, n.id ∈ ids
  kept : ∀ ids, c.tree.Made ids → ∀ later, c.Leads later → ∃ more, later.tree.Made (ids ++ more)
  fresh : ∀ n ∈ c.tree.nodes, ∀ later, c.Leads later → ∀ location kind payload id t,
    later.tree.create location kind payload = .ok (id, t) → id ≠ n.id
  get?_computed : ∀ h,
    c.tree.get? h = Handle.resolve? (.ofNat c.arena.generation) c.tree.nodes h
  nextHandle_computed : c.tree.pool.nextHandle =
    Handle.pack (.ofNat c.arena.generation) (.ofNat c.tree.size)

theorem generation_build (c : Context) (form : Form) (location : Option Location) :
    ((ContextOp.build form location).apply c).2.arena.generation = c.arena.generation := rfl

theorem generation_reset (c : Context) :
    (ContextOp.reset.apply c).2.arena.generation = c.arena.generation + 1 := by
  simp only [ContextOp.apply]
  exact c.kept_reset.generation_eq

theorem nodesSound_of_leads (hFresh : create o = .ok fresh) (hLeads : fresh.Leads c)
    (hFew : c.arena.generation < 2 ^ 29) : c.NodesSound := by
  have hDated : c.tree.pool.generation = c.arena.generation :=
    (Continues.of_leads (continues_create hFresh) hLeads).dated
  obtain ⟨ids, hMade⟩ : ∃ ids, c.tree.Made ids := by
    have hEmpty : fresh.tree.Made [] := by
      obtain ⟨a, x, types, -, -, -, rfl⟩ := create_cases hFresh
      exact .empty
    exact hLeads.made hEmpty
  have hNumbered := hMade.numbered
  refine
    { node_id := ?_
      made := ⟨ids, hMade⟩
      distinct := fun _ hMade => hMade.nodup
      id_mem := fun _ hMade _ hn => hMade.id_mem hn
      kept := fun _ hMade _ hLater => hLater.made hMade
      fresh := ?_
      get?_computed := ?_
      nextHandle_computed := ?_ }
  · intro n hn
    rw [Tree.node, hNumbered.get?_id hn]
  · intro n hn later hLater location kind payload id t hNew hEq
    obtain ⟨more, hMore⟩ := hLater.made hMade
    have hOld : id ∈ ids ++ more := List.mem_append_left _ (hEq ▸ hMade.id_mem hn)
    exact List.disjoint_of_nodup_append (hMore.create hNew).nodup hOld (List.mem_singleton_self id)
  · intro h
    rw [← hDated]
    exact Pool.get?_eq_resolve? (hDated ▸ hFew) h
  · have hSize : c.tree.size ≤ Handle.span := hNumbered.size_le
    rw [Handle.pack_ofNat hFew hSize, ← hDated]
    rfl

end Context

/-- Handles are never given twice, and they find what they were given for as long as it is there and
nothing else. This holds of all pools of an arena that is emptied less than `2 ^ 29` times, and so
of the nodes of a context. -/
theorem handles_sound :
    (∀ (α : Type) (blockSize : Number) (a : Arena), Arena.create blockSize = .ok a →
      ∀ calls : List (PoolCall α), calls.countP PoolCall.empties < 2 ^ 29 →
      ∀ after, after = PoolHistory.run calls { store := { arena := a } } →
      ∀ (i : Nat) (p : Pool α), after.store.pools[i]? = some p →
        p.Sound after.store.arena.generation (after.past i) (after.live i)) ∧
    ∀ (o : ContextOptions) (fresh c : Context), Context.create o = .ok fresh → fresh.Leads c →
      c.arena.generation < 2 ^ 29 → c.NodesSound := by
  refine ⟨?_, fun _ _ _ => Context.nodesSound_of_leads⟩
  rintro α blockSize a hArena calls hFew after rfl i p hp
  exact PoolHistory.sound_run (PoolHistory.accounts_new a)
    (by rw [Arena.generation_create hArena, Nat.zero_add]; exact hFew) hp

/-- A pool whose arena is reset and cleared in between, and a context with a node before a reset and
one after it. -/
theorem handles_sound_emptied :
    (∃ a, Arena.create 64 = .ok a ∧ ∃ after, after = PoolHistory.run
        [.addPool, .construct 0 'a', .construct 0 'b', .reset, .construct 0 'c', .clear,
          .construct 0 'd'] { store := { arena := a } } ∧
      ∃ p, after.store.pools[0]? = some p ∧
        p.Sound after.store.arena.generation (after.past 0) (after.live 0)) ∧
    ∃ fresh c, Context.create {} = .ok fresh ∧
      c = [ContextOp.build .noop none, .reset, .build .noop none].foldl
        (fun c op => (op.apply c).2) fresh ∧ c.NodesSound := by
  refine ⟨⟨{ blockSize := 64 }, rfl, _, rfl, { generation := 2, items := #['d'] }, ?pool,
    handles_sound.1 Char 64 _ rfl _ (by decide) _ rfl 0 _ ?pool⟩, ?_⟩
  case pool =>
    simp [PoolHistory.run, PoolHistory.step, PoolHistory.given, PoolHistory.emptied,
      PooledArena.addPool, PooledArena.reset, PooledArena.clear, Pool.construct?, Pool.release,
      Arena.reset, Arena.clear, Handle.span]
  obtain ⟨fresh, hFresh⟩ : ∃ fresh, Context.create {} = .ok fresh :=
    Context.exists_create (a := { blockSize := Arena.defaultBlockSize }) rfl (by decide) rfl
  have hFirst : fresh.arena.generation = 0 := Context.generation_create hFresh
  have hLeads : fresh.Leads _ :=
    Context.Leads.refl.ops [.build .noop none, .reset, .build .noop none]
  refine ⟨fresh, _, hFresh, rfl, handles_sound.2 {} fresh _ hFresh hLeads ?_⟩
  rw [List.foldl_cons, List.foldl_cons, List.foldl_cons, List.foldl_nil, Context.generation_build,
    Context.generation_reset, Context.generation_build, hFirst]
  decide

end SemanticCore
