import SemanticCore.Proofs.Arena.Keeping
import SemanticCore.Proofs.Arena.Packing

/-!
# Pools of one arena

The pools of an arena share its generation, which goes up whenever the arena is emptied. So a handle
that a pool gave before differs from all that it gives afterwards, and it finds nothing any more.

* `PoolCall`: what is done with an arena and its pools.
* `PoolHistory`: an arena and its pools with what the pools gave; `PoolHistory.run`: a run of calls.
* `PoolAccount`: how what a pool gave agrees with what it holds; `PoolHistory.accounts_run`: every
  run keeps that.
* `Pool.Sound`: what can be told from this of the handles of a pool; `PoolHistory.sound_run`.
-/

namespace SemanticCore

/-- What is done with an arena, with the pools of objects that it owns, and with its bytes. -/
inductive PoolCall (α : Type) where
  | addPool
  | construct (pool : Nat) (value : α)
  | allocate (limit : Nat) (size alignment : Number)
  | reset
  | clear

/-- Whether a call empties the arena. -/
def PoolCall.empties {α : Type} : PoolCall α → Bool
  | reset | clear => true
  | _ => false

/-- An arena with its pools, and what each pool gave so far: the handles and their objects, in
order, those from before the arena was last emptied apart. -/
structure PoolHistory (α : Type) where
  store : PooledArena α
  past : Nat → List (Handle × α) := fun _ => []
  live : Nat → List (Handle × α) := fun _ => []

variable {α : Type}

namespace PoolHistory

/-- What was given is past when the arena is emptied. -/
def emptied (s : PoolHistory α) (store : PooledArena α) : PoolHistory α :=
  { store, past := fun i => s.past i ++ s.live i }

/-- The `i`-th pool gave a handle for an object. -/
def given (s : PoolHistory α) (i : Nat) (p : Pool α) (h : Handle) (x : α) : PoolHistory α :=
  { s with
    store.pools := s.store.pools.setIfInBounds i p
    live := Function.update s.live i (s.live i ++ [(h, x)]) }

/-- A call for a pool that is not there, or that has no handle left, changes nothing. -/
def step (s : PoolHistory α) : PoolCall α → PoolHistory α
  | .addPool => { s with store := s.store.addPool.2 }
  | .construct i x =>
    match s.store.pools[i]?.bind (·.construct? x) with
    | some (h, p) => s.given i p h x
    | none => s
  | .allocate limit size alignment =>
    { s with store.arena := (s.store.arena.allocateWithin limit size alignment).2 }
  | .reset => s.emptied s.store.reset
  | .clear => s.emptied s.store.clear

def run (calls : List (PoolCall α)) (s : PoolHistory α) : PoolHistory α := calls.foldl step s

end PoolHistory

/-! ## One pool -/

namespace Pool

/-- What a pool gave for the objects that it holds. -/
def issues (p : Pool α) : List (Handle × α) :=
  p.values.zipIdx.map fun (x, k) => (p.handle k, x)

variable {p : Pool α} {h : Handle} {x : α}

theorem mem_issues : (h, x) ∈ p.issues ↔ ∃ k, h = p.handle k ∧ p.items[k]? = some x := by
  simp only [issues, List.mem_map, Prod.exists, List.mem_zipIdx_iff_getElem?, Prod.mk.injEq,
    values, Array.getElem?_toList]
  constructor
  · rintro ⟨y, k, hItem, rfl, rfl⟩
    exact ⟨k, rfl, hItem⟩
  · rintro ⟨k, rfl, hItem⟩
    exact ⟨x, k, hItem, rfl, rfl⟩

theorem issues_push (p : Pool α) (x : α) :
    issues { p with items := p.items.push x } = p.issues ++ [(p.nextHandle, x)] := by
  simp only [issues, values, Array.toList_push, List.zipIdx_append, List.map_append,
    Array.length_toList, Nat.zero_add]
  rfl

theorem map_snd_issues (p : Pool α) : p.issues.map Prod.snd = p.values := by
  simp [issues, List.map_map, Function.comp_def]

theorem length_issues (p : Pool α) : p.issues.length = p.size := by
  simp [issues, values, size]

end Pool

/-- How what a pool gave agrees with what it holds, in a generation. A pool that is not there yet
gave nothing. -/
structure PoolAccount (g : Nat) (pool : Option (Pool α)) (past live : List (Handle × α)) :
    Prop where
  generation_eq : ∀ p, pool = some p → p.generation = g
  size_le : ∀ p, pool = some p → p.size ≤ Handle.span
  live_eq : live = (pool.map Pool.issues).getD []
  past_lt : ∀ e ∈ past, ∃ n, e.1 = .ofNat n ∧ n < g * Handle.span
  distinct : ((past ++ live).map Prod.fst).Nodup

namespace PoolAccount

variable {g : Nat} {pool : Option (Pool α)} {past live : List (Handle × α)} {p q : Pool α}
  {h : Handle} {x : α}

theorem addPool (ha : PoolAccount g none past live) :
    PoolAccount g (some { generation := g }) past live where
  generation_eq := by
    rintro p ⟨⟩
    rfl
  size_le := by
    rintro p ⟨⟩
    exact Nat.zero_le _
  live_eq := ha.live_eq
  past_lt := ha.past_lt
  distinct := ha.distinct

theorem live_lt (ha : PoolAccount g (some p) past live) :
    ∀ e ∈ live, ∃ k, e.1 = .ofNat (g * Handle.span + k) ∧ k < p.size := by
  rintro ⟨h, x⟩ he
  rw [ha.live_eq] at he
  obtain ⟨k, rfl, hItem⟩ := Pool.mem_issues.mp he
  rw [Pool.handle, ha.generation_eq p rfl]
  exact ⟨k, rfl, (Array.getElem?_eq_some_iff.mp hItem).1⟩

/-- A new handle is not among those that the pool gave: they are of an earlier generation or of an
earlier place. -/
theorem nextHandle_not_mem (ha : PoolAccount g (some p) past live) :
    p.nextHandle ∉ (past ++ live).map Prod.fst := by
  intro hMem
  obtain ⟨e, he, hEq⟩ := List.mem_map.mp hMem
  rw [Pool.nextHandle, Pool.handle, ha.generation_eq p rfl] at hEq
  rcases List.mem_append.mp he with he | he
  · obtain ⟨n, hn, hLt⟩ := ha.past_lt e he
    have := Number.ofNat_injective (hn.symm.trans hEq)
    omega
  · obtain ⟨k, hk, hLt⟩ := ha.live_lt e he
    have := Number.ofNat_injective (hk.symm.trans hEq)
    have : p.size = p.items.size := rfl
    omega

theorem construct (ha : PoolAccount g (some p) past live)
    (hNew : p.construct? x = some (h, q)) :
    PoolAccount g (some q) past (live ++ [(h, x)]) := by
  obtain ⟨hRoom, rfl, rfl⟩ := Pool.construct?_eq_some hNew
  refine ⟨?_, ?_, ?_, ha.past_lt, ?_⟩
  · rintro q ⟨⟩
    exact ha.generation_eq p rfl
  · rintro q ⟨⟩
    rw [Pool.size, Array.size_push]
    exact hRoom
  · rw [ha.live_eq]
    exact (Pool.issues_push p x).symm
  · rw [← List.append_assoc, List.map_append]
    exact ha.distinct.append (List.nodup_singleton _)
      (List.disjoint_singleton.mpr ha.nextHandle_not_mem)

theorem emptied (ha : PoolAccount g pool past live) :
    PoolAccount (g + 1) (pool.map Pool.release) (past ++ live) [] where
  generation_eq := by
    intro q hq
    obtain ⟨p, hp, rfl⟩ := Option.map_eq_some_iff.mp hq
    exact congrArg (· + 1) (ha.generation_eq p hp)
  size_le := by
    intro q hq
    obtain ⟨p, -, rfl⟩ := Option.map_eq_some_iff.mp hq
    exact Nat.zero_le _
  live_eq := by cases pool <;> rfl
  past_lt := by
    intro e he
    rw [Nat.add_mul, Nat.one_mul]
    rcases List.mem_append.mp he with he | he
    · obtain ⟨n, hn, hLt⟩ := ha.past_lt e he
      exact ⟨n, hn, by omega⟩
    · cases pool with
      | none =>
        rw [ha.live_eq] at he
        cases he
      | some p =>
        obtain ⟨k, hk, hLt⟩ := ha.live_lt e he
        have := ha.size_le p rfl
        exact ⟨_, hk, by omega⟩
  distinct := by
    rw [List.append_nil]
    exact ha.distinct

end PoolAccount

/-! ## Runs -/

namespace PoolHistory

variable {s : PoolHistory α}

theorem step_construct_cases (s : PoolHistory α) (i : Nat) (x : α) :
    s.step (.construct i x) = s ∨ ∃ p h q, s.store.pools[i]? = some p ∧
      p.construct? x = some (h, q) ∧ s.step (.construct i x) = s.given i q h x := by
  cases hMade : s.store.pools[i]?.bind (·.construct? x) with
  | none => exact .inl (by simp only [step, hMade])
  | some made =>
    obtain ⟨p, hp, hNew⟩ := Option.bind_eq_some_iff.mp hMade
    exact .inr ⟨p, made.1, made.2, hp, hNew, by simp only [step, hMade]⟩

/-- All pools agree with what they gave. -/
def Accounts (s : PoolHistory α) : Prop :=
  ∀ i, PoolAccount s.store.arena.generation s.store.pools[i]? (s.past i) (s.live i)

theorem accounts_new (a : Arena) : Accounts { store := { arena := a } : PoolHistory α } := by
  intro i
  refine ⟨?_, ?_, rfl, by simp, List.nodup_nil⟩ <;> simp

theorem Accounts.emptied (hs : s.Accounts) {store : PooledArena α}
    (hPools : store.pools = s.store.pools.map Pool.release)
    (hGeneration : store.arena.generation = s.store.arena.generation + 1) :
    (s.emptied store).Accounts := by
  intro i
  have hAccount := (hs i).emptied
  rw [← Array.getElem?_map, ← hPools, ← hGeneration] at hAccount
  exact hAccount

theorem Accounts.step (hs : s.Accounts) (call : PoolCall α) : (s.step call).Accounts := by
  cases call with
  | addPool =>
    intro i
    have hAccount := hs i
    show PoolAccount _ (s.store.pools.push _)[i]? _ _
    rw [Array.getElem?_push]
    split
    · rename_i hi
      rw [Array.getElem?_eq_none hi.ge] at hAccount
      exact hAccount.addPool
    · exact hAccount
  | construct i x =>
    obtain hSame | ⟨p, h, q, hp, hNew, hGiven⟩ := s.step_construct_cases i x
    · rw [hSame]
      exact hs
    · obtain ⟨hi, -⟩ := Array.getElem?_eq_some_iff.mp hp
      rw [hGiven]
      intro j
      show PoolAccount _ (s.store.pools.setIfInBounds i q)[j]? (s.past j)
        (Function.update s.live i (s.live i ++ [(h, x)]) j)
      by_cases hij : j = i
      · subst hij
        rw [Array.getElem?_setIfInBounds_self_of_lt hi, Function.update_self]
        exact PoolAccount.construct (hp ▸ hs j) hNew
      · rw [Array.getElem?_setIfInBounds_ne (Ne.symm hij), Function.update_of_ne hij]
        exact hs j
  | allocate limit size alignment =>
    intro i
    show PoolAccount (s.store.arena.allocateWithin limit size alignment).2.generation _ _ _
    rw [(s.store.arena.kept_allocateWithin limit size alignment).generation_eq]
    exact hs i
  | reset => exact hs.emptied rfl rfl
  | clear => exact hs.emptied rfl rfl

theorem accounts_run (hs : s.Accounts) (calls : List (PoolCall α)) : (s.run calls).Accounts := by
  induction calls generalizing s with
  | nil => exact hs
  | cons call rest ih => exact ih (hs.step call)

/-- Every call that empties the arena starts a generation. -/
theorem generation_step (call : PoolCall α) :
    (s.step call).store.arena.generation =
      s.store.arena.generation + [call].countP PoolCall.empties := by
  cases call with
  | construct i x =>
    obtain hSame | ⟨p, h, q, -, -, hGiven⟩ := s.step_construct_cases i x
    · rw [hSame]
      rfl
    · rw [hGiven]
      rfl
  | allocate limit size alignment =>
    exact (s.store.arena.kept_allocateWithin limit size alignment).generation_eq
  | _ => rfl

theorem generation_run (calls : List (PoolCall α)) :
    (s.run calls).store.arena.generation =
      s.store.arena.generation + calls.countP PoolCall.empties := by
  induction calls generalizing s with
  | nil => rfl
  | cons call rest ih =>
    rw [run, List.foldl_cons, ← run, ih, generation_step, Nat.add_assoc, ← List.countP_append]
    rfl

end PoolHistory

/-! ## Handles -/

/-- The handles of a pool that gave `past` before the arena was last emptied and `live` since. The
last two hold of the double-precision computations. -/
structure Pool.Sound (p : Pool α) (g : Nat) (past live : List (Handle × α)) : Prop where
  distinct : ((past ++ live).map Prod.fst).Nodup
  get?_eq_some_iff : ∀ h x, p.get? h = some x ↔ (h, x) ∈ live
  construct?_fst : ∀ x, (p.construct? x).map Prod.fst =
    if live.length < Handle.span then some p.nextHandle else none
  get?_computed : ∀ h, p.get? h = Handle.resolve? (.ofNat g) (live.map Prod.snd) h
  nextHandle_computed : p.nextHandle = Handle.pack (.ofNat g) (.ofNat live.length)

theorem PoolAccount.sound {g : Nat} {p : Pool α} {past live : List (Handle × α)}
    (ha : PoolAccount g (some p) past live) (hg : g < 2 ^ 29) : p.Sound g past live := by
  have hLive : live = p.issues := ha.live_eq
  have hLength : live.length = p.size := hLive ▸ p.length_issues
  have hValues : live.map Prod.snd = p.values := hLive ▸ p.map_snd_issues
  have hGeneration := ha.generation_eq p rfl
  have hSize := ha.size_le p rfl
  refine ⟨ha.distinct, ?_, ?_, ?_, ?_⟩
  · intro h x
    rw [hLive, Pool.mem_issues, Pool.get?_eq_some_iff]
    constructor
    · rintro ⟨k, -, hk⟩
      exact ⟨k, hk⟩
    · rintro ⟨k, rfl, hItem⟩
      exact ⟨k, (Array.getElem?_eq_some_iff.mp hItem).1.trans_le hSize, rfl, hItem⟩
  · intro x
    rw [hLength, Pool.construct?, Pool.size]
    split <;> rfl
  · intro h
    rw [hValues, ← hGeneration]
    exact Pool.get?_eq_resolve? (hGeneration.trans_lt hg) h
  · rw [hLength, Handle.pack_ofNat hg hSize, ← hGeneration]
    rfl

/-- The handles of every pool are sound after every run that does not exhaust the generations. -/
theorem PoolHistory.sound_run {s : PoolHistory α} (hs : s.Accounts) {calls : List (PoolCall α)}
    (hFew : s.store.arena.generation + calls.countP PoolCall.empties < 2 ^ 29) {i : Nat}
    {p : Pool α} (hp : (s.run calls).store.pools[i]? = some p) :
    p.Sound (s.run calls).store.arena.generation ((s.run calls).past i)
      ((s.run calls).live i) :=
  (hp ▸ accounts_run hs calls i).sound (generation_run calls ▸ hFew)

end SemanticCore
