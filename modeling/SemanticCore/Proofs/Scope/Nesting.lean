import SemanticCore.Proofs.Scope.Environment
import Mathlib.Data.List.Nodup

/-!
# Nested scopes

The environment of a scope has its frame and the frames of the scopes around it. Parents come
earlier in the store, so the chain from a scope ends and a change in one scope is not seen from the
scopes before it.

* `Scopes.Nested`: parents, levels, indices and names, as every operation keeps them.
* `Scopes.Nested.environment_modify`: one changed scope changes one frame.
* `Scopes.Nested.find?_environment`, `Scopes.Nested.environment_refer`: resolution along the chain.
* `Scopes.Nested.environment_createChild`: a scope inside another one.
-/

namespace SemanticCore

/-! ## Frames -/

/-- What is kept of a symbol in a frame, where its index is its place. -/
def Symbol.binding (x : Symbol) : Binding := ⟨x.name, x.declaration, x.lastReference⟩

namespace Frame

theorem map_binding_symbols (f : Frame) : f.symbols.map Symbol.binding = f := by
  apply List.ext_getElem
  · simp [symbols]
  · intro i hLeft hRight
    simp [symbols, Symbol.binding, Binding.symbol]

theorem find?_eq_none {f : Frame} {name : Name} :
    f.find? name = none ↔ name ∉ f.map (·.name) := by
  have hNames : f.symbols.map (·.name) = f.map (·.name) := by
    conv_rhs => rw [← f.map_binding_symbols, List.map_map]
    rfl
  rw [← hNames]
  simp [find?]

/-- With distinct names, what changes every binding of a name changes the first one alone. -/
theorem map_eq_modify {f : Frame} (hNodup : (f.map (·.name)).Nodup) (name : Name)
    (change : Binding → Binding) :
    (f.map fun b => if b.name = name then change b else b) =
      f.modify (f.findIdx (·.name == name)) change := by
  induction f with
  | nil => simp
  | cons b f ih =>
    rw [List.map_cons, List.nodup_cons] at hNodup
    by_cases hName : b.name = name
    · have hOthers : ∀ c ∈ f, ¬ c.name = name := by
        intro c hMem hEq
        exact hNodup.1 (hName ▸ hEq ▸ List.mem_map_of_mem hMem)
      have hSame : (f.map fun c => if c.name = name then change c else c) = f := by
        conv_rhs => rw [← List.map_id f]
        exact List.map_congr_left fun c hMem => if_neg (hOthers c hMem)
      rw [List.map_cons, if_pos hName, hSame, List.findIdx_cons]
      simp [hName]
    · rw [List.map_cons, if_neg hName, ih hNodup.2, List.findIdx_cons, beq_false_of_ne hName,
        cond_false, List.modify_succ_cons]

end Frame

/-! ## Scopes -/

namespace Scope

def frame (s : Scope) : Frame := s.symbols.map Symbol.binding

/-- The symbols of a scope are numbered by their places and have distinct names. -/
structure Numbered (s : Scope) : Prop where
  indices : s.symbols.map (·.index) = List.range s.symbols.length
  nodup : (s.symbols.map (·.name)).Nodup

theorem numbered_of_nil {s : Scope} (hSymbols : s.symbols = []) : s.Numbered :=
  ⟨by simp [hSymbols], by simp [hSymbols]⟩

theorem map_name_frame (s : Scope) : s.frame.map (·.name) = s.symbols.map (·.name) := by
  rw [frame, List.map_map]
  rfl

theorem Numbered.symbols_eq {s : Scope} (hNumbered : s.Numbered) :
    s.symbols = s.frame.symbols := by
  apply List.ext_getElem
  · simp [frame, Frame.symbols]
  · intro i hLeft hRight
    have hIndex : s.symbols[i].index = i := by
      have hAt := congrArg (·[i]?) hNumbered.indices
      simpa [hLeft] using hAt
    have hSymbol : s.symbols[i] = s.symbols[i].binding.symbol s.symbols[i].index := rfl
    rw [hIndex] at hSymbol
    simpa [frame, Frame.symbols] using hSymbol

theorem Numbered.find?_eq {s : Scope} (hNumbered : s.Numbered) (name : Name) :
    s.find? name = s.frame.find? name := by
  rw [find?, Frame.find?, hNumbered.symbols_eq]

theorem Numbered.define?_of_some {s : Scope} (hNumbered : s.Numbered)
    (declaration : Option NodeId) {name : Name} {x : Symbol} (hSome : s.frame.find? name = some x) :
    s.define? name declaration = none := by
  rw [define?, hNumbered.find?_eq, hSome]

theorem Numbered.define?_of_none {s : Scope} (hNumbered : s.Numbered)
    (declaration : Option NodeId) {name : Name} (hNone : s.frame.find? name = none) :
    ∃ x s', s.define? name declaration = some (x, s') ∧ s'.Numbered ∧
      s'.frame = s.frame.add name declaration ∧ s'.parent = s.parent ∧ s'.level = s.level := by
  rw [define?, hNumbered.find?_eq, hNone]
  refine ⟨_, _, rfl, ⟨?_, ?_⟩, ?_, rfl, rfl⟩
  · simp [hNumbered.indices, List.range_succ]
  · have hFresh : name ∉ s.symbols.map (·.name) := by
      rw [← s.map_name_frame]
      exact Frame.find?_eq_none.1 hNone
    rw [List.map_append, List.map_singleton, ← List.concat_eq_append]
    exact hNumbered.nodup.concat hFresh
  · simp [frame, Frame.add, Symbol.binding]

theorem Numbered.refer {s : Scope} (hNumbered : s.Numbered) (name : Name)
    (reference : Option NodeId) : (s.refer name reference).Numbered := by
  have hKeep : ∀ x : Symbol,
      (if x.name = name then { x with lastReference := reference } else x).index = x.index ∧
      (if x.name = name then { x with lastReference := reference } else x).name = x.name := by
    intro x
    split <;> exact ⟨rfl, rfl⟩
  refine ⟨?_, ?_⟩
  · simp only [Scope.refer, List.map_map, List.length_map, Function.comp_def, hKeep]
    exact hNumbered.indices
  · simp only [Scope.refer, List.map_map, Function.comp_def, hKeep]
    exact hNumbered.nodup

theorem Numbered.frame_refer {s : Scope} (hNumbered : s.Numbered) (name : Name)
    (reference : Option NodeId) :
    (s.refer name reference).frame = s.frame.refer name reference := by
  have hNodup : (s.frame.map (·.name)).Nodup := by
    rw [s.map_name_frame]
    exact hNumbered.nodup
  rw [Frame.refer, ← Frame.map_eq_modify hNodup]
  simp only [frame, Scope.refer, List.map_map]
  apply List.map_congr_left
  intro x hMem
  by_cases hName : x.name = name <;> simp [Symbol.binding, hName]

end Scope

/-! ## The store -/

namespace Scopes

theorem get_modify {s : Scopes} {id : Nat} (hSize : id < s.items.size)
    (change : Scope → Scope) (i : Nat) :
    (s.modify id change).get i = if i = id then change (s.get id) else s.get i := by
  by_cases hEq : i = id
  · subst hEq
    simp [get, modify, hSize, Array.getD_eq_getD_getElem?, Array.getElem_modify_self]
  · have hNe : id ≠ i := fun hSame => hEq hSame.symm
    simp [get, modify, hEq, hNe, Array.getD_eq_getD_getElem?, Array.getElem?_modify]

/-- What a change of a scope keeps stays for every scope. -/
theorem apply_get_modify {α : Type} (part : Scope → α) {s : Scopes} {id : Nat}
    (hSize : id < s.items.size) {change : Scope → Scope}
    (hKeep : part (change (s.get id)) = part (s.get id)) (i : Nat) :
    part ((s.modify id change).get i) = part (s.get i) := by
  rw [get_modify hSize]
  split
  · next hEq => rw [hKeep, hEq]
  · rfl

theorem get_push (s : Scopes) (scope : Scope) (i : Nat) :
    get { s with items := s.items.push scope } i =
      if i = s.items.size then scope else s.get i := by
  by_cases hEq : i = s.items.size
  · simp [get, hEq, Array.getD_eq_getD_getElem?]
  · simp [get, hEq, Array.getD_eq_getD_getElem?, Array.getElem?_push]

theorem get_of_size_le {s : Scopes} {id : Nat} (hSize : s.items.size ≤ id) :
    s.get id = default := by
  simp [get, Array.getD_eq_getD_getElem?, Array.getElem?_eq_none hSize]

/-- The scopes from a place on: a parent comes before its scope and is one level above it. -/
structure Nested (first : Nat) (s : Scopes) : Prop where
  parent_lt : ∀ id p : Nat, first ≤ id → (s.get id).parent = some p → first ≤ p ∧ p < id
  level_zero : ∀ id : Nat, first ≤ id → (s.get id).parent = none → (s.get id).level = 0
  level_succ : ∀ id p : Nat, first ≤ id → (s.get id).parent = some p →
    (s.get id).level = (s.get p).level + 1
  numbered : ∀ id : Nat, first ≤ id → (s.get id).Numbered

section

variable {first id : Nat} {s : Scopes}

/-- The chain ends before the limit does, so the limit makes no difference. -/
theorem Nested.chainWithin_eq (hNested : s.Nested first) {n m : Nat} (hFirst : first ≤ id)
    (hLeft : id ≤ n) (hRight : id ≤ m) : s.chainWithin n id = s.chainWithin m id := by
  induction id using Nat.strongRecOn generalizing n m with
  | ind id ih =>
    cases hParent : (s.get id).parent with
    | none => cases n <;> cases m <;> simp [chainWithin, hParent]
    | some p =>
      obtain ⟨hFirst', hLt⟩ := hNested.parent_lt id p hFirst hParent
      obtain ⟨n, rfl⟩ : ∃ k, n = k + 1 := ⟨n - 1, by omega⟩
      obtain ⟨m, rfl⟩ : ∃ k, m = k + 1 := ⟨m - 1, by omega⟩
      simp only [chainWithin, hParent]
      exact congrArg (id :: ·) (ih p hLt hFirst' (by omega) (by omega))

theorem chain_of_none (hParent : (s.get id).parent = none) : s.chain id = [id] := by
  rw [chain]
  cases s.items.size <;> simp [chainWithin, hParent]

theorem Nested.chain_of_some (hNested : s.Nested first) (hFirst : first ≤ id)
    (hSize : id < s.items.size) {p : Nat} (hParent : (s.get id).parent = some p) :
    s.chain id = id :: s.chain p := by
  obtain ⟨hFirst', hLt⟩ := hNested.parent_lt id p hFirst hParent
  obtain ⟨n, hCount⟩ : ∃ n, s.items.size = n + 1 := ⟨s.items.size - 1, by omega⟩
  have hLimit : s.chainWithin (n + 1) p = s.chainWithin n p :=
    hNested.chainWithin_eq hFirst' (by omega) (by omega)
  rw [chain, chain, hCount, hLimit]
  simp only [chainWithin, hParent]

theorem mem_chain_self (s : Scopes) (id : ScopeId) : id ∈ s.chain id := by
  rw [chain]
  cases s.items.size with
  | zero => exact List.mem_singleton.mpr rfl
  | succ n =>
    rw [chainWithin]
    split <;> exact List.mem_cons_self

/-- A scope and the scopes around it do not come after it. -/
theorem Nested.le_of_mem_chain (hNested : s.Nested first) (hFirst : first ≤ id)
    (hSize : id < s.items.size) {i : Nat} (hMem : i ∈ s.chain id) : first ≤ i ∧ i ≤ id := by
  induction id using Nat.strongRecOn with
  | ind id ih =>
    cases hParent : (s.get id).parent with
    | none =>
      rw [chain_of_none hParent, List.mem_singleton] at hMem
      omega
    | some p =>
      obtain ⟨hFirst', hLt⟩ := hNested.parent_lt id p hFirst hParent
      rw [hNested.chain_of_some hFirst hSize hParent] at hMem
      rcases List.mem_cons.mp hMem with rfl | hOuter
      · exact ⟨hFirst, Nat.le_refl i⟩
      · have := ih p hLt hFirst' (by omega) hOuter
        omega

/-- A chain depends on the parents of the scopes that do not come after its own alone. -/
theorem Nested.chain_congr {s' : Scopes} (hNested : s.Nested first) (hNested' : s'.Nested first)
    (hFirst : first ≤ id) (hSize : id < s.items.size) (hSize' : id < s'.items.size)
    (hParent : ∀ i : Nat, i ≤ id → (s'.get i).parent = (s.get i).parent) :
    s'.chain id = s.chain id := by
  induction id using Nat.strongRecOn with
  | ind id ih =>
    have hHere := hParent id (Nat.le_refl id)
    cases hCase : (s.get id).parent with
    | none => rw [chain_of_none hCase, chain_of_none (hHere.trans hCase)]
    | some p =>
      obtain ⟨hFirst', hLt⟩ := hNested.parent_lt id p hFirst hCase
      rw [hNested.chain_of_some hFirst hSize hCase,
        hNested'.chain_of_some hFirst hSize' (hHere.trans hCase),
        ih p hLt hFirst' (by omega) (by omega) fun i hLe => hParent i (by omega)]

def environment (s : Scopes) (id : ScopeId) : Environment :=
  (s.chain id).map fun i => (s.get i).frame

theorem environment_of_none (hParent : (s.get id).parent = none) :
    s.environment id = [(s.get id).frame] := by
  rw [environment, chain_of_none hParent, List.map_singleton]

theorem Nested.environment_of_some (hNested : s.Nested first) (hFirst : first ≤ id)
    (hSize : id < s.items.size) {p : Nat} (hParent : (s.get id).parent = some p) :
    s.environment id = (s.get id).frame :: s.environment p := by
  rw [environment, hNested.chain_of_some hFirst hSize hParent, List.map_cons, environment]

theorem Nested.exists_environment (hNested : s.Nested first) (hFirst : first ≤ id)
    (hSize : id < s.items.size) : ∃ fs, s.environment id = (s.get id).frame :: fs := by
  cases hParent : (s.get id).parent with
  | none => exact ⟨[], environment_of_none hParent⟩
  | some p => exact ⟨_, hNested.environment_of_some hFirst hSize hParent⟩

/-- An environment depends on the scopes that do not come after its own alone. -/
theorem Nested.environment_congr {s' : Scopes} (hNested : s.Nested first)
    (hNested' : s'.Nested first) (hFirst : first ≤ id) (hSize : id < s.items.size)
    (hSize' : id < s'.items.size)
    (hParent : ∀ i : Nat, i ≤ id → (s'.get i).parent = (s.get i).parent)
    (hFrame : ∀ i : Nat, i ≤ id → (s'.get i).frame = (s.get i).frame) :
    s'.environment id = s.environment id := by
  rw [environment, environment, hNested.chain_congr hNested' hFirst hSize hSize' hParent]
  apply List.map_congr_left
  intro i hMem
  exact hFrame i (hNested.le_of_mem_chain hFirst hSize hMem).2

theorem Nested.level_eq (hNested : s.Nested first) (hFirst : first ≤ id)
    (hSize : id < s.items.size) : (s.get id).level + 1 = (s.environment id).length := by
  induction id using Nat.strongRecOn with
  | ind id ih =>
    cases hParent : (s.get id).parent with
    | none => simp [environment_of_none hParent, hNested.level_zero id hFirst hParent]
    | some p =>
      obtain ⟨hFirst', hLt⟩ := hNested.parent_lt id p hFirst hParent
      rw [hNested.environment_of_some hFirst hSize hParent, List.length_cons,
        hNested.level_succ id p hFirst hParent, ih p hLt hFirst' (by omega)]

theorem Nested.flatMap_chain (hNested : s.Nested first) (hFirst : first ≤ id)
    (hSize : id < s.items.size) :
    ((s.chain id).flatMap fun i => (s.get i).symbols) =
      (s.environment id).flatMap Frame.symbols := by
  induction id using Nat.strongRecOn with
  | ind id ih =>
    cases hParent : (s.get id).parent with
    | none =>
      rw [chain_of_none hParent, environment_of_none hParent, List.flatMap_singleton,
        List.flatMap_singleton, ← (hNested.numbered id hFirst).symbols_eq]
    | some p =>
      obtain ⟨hFirst', hLt⟩ := hNested.parent_lt id p hFirst hParent
      rw [hNested.chain_of_some hFirst hSize hParent,
        hNested.environment_of_some hFirst hSize hParent, List.flatMap_cons, List.flatMap_cons,
        ih p hLt hFirst' (by omega), ← (hNested.numbered id hFirst).symbols_eq]

/-! ## Changes of the store -/

theorem Nested.modify (hNested : s.Nested first) (hSize : id < s.items.size)
    {change : Scope → Scope} (hParent : (change (s.get id)).parent = (s.get id).parent)
    (hLevel : (change (s.get id)).level = (s.get id).level)
    (hNumbered : (change (s.get id)).Numbered) : (s.modify id change).Nested first := by
  have hParents := apply_get_modify Scope.parent hSize hParent
  have hLevels := apply_get_modify Scope.level hSize hLevel
  refine ⟨?_, ?_, ?_, ?_⟩
  · intro i p hFirst hCase
    exact hNested.parent_lt i p hFirst ((hParents i).symm.trans hCase)
  · intro i hFirst hCase
    rw [hLevels]
    exact hNested.level_zero i hFirst ((hParents i).symm.trans hCase)
  · intro i p hFirst hCase
    rw [hLevels, hLevels]
    exact hNested.level_succ i p hFirst ((hParents i).symm.trans hCase)
  · intro i hFirst
    rw [get_modify hSize]
    split
    · exact hNumbered
    · exact hNested.numbered i hFirst

/-- A change of the frame of one scope is the change of the head of its environment. -/
theorem Nested.environment_modify (hNested : s.Nested first) (hFirst : first ≤ id)
    (hSize : id < s.items.size) {change : Scope → Scope}
    (hNested' : (s.modify id change).Nested first)
    (hParent : (change (s.get id)).parent = (s.get id).parent) :
    (s.modify id change).environment id =
      (change (s.get id)).frame :: (s.environment id).tail := by
  have hSize' : id < (s.modify id change).items.size := by simpa [Scopes.modify] using hSize
  have hHere : (s.modify id change).get id = change (s.get id) := by
    rw [get_modify hSize, if_pos rfl]
  cases hCase : (s.get id).parent with
  | none =>
    have hNone : ((s.modify id change).get id).parent = none := by rw [hHere, hParent, hCase]
    rw [environment_of_none hNone, environment_of_none hCase, hHere, List.tail_cons]
  | some p =>
    have hSome : ((s.modify id change).get id).parent = some p := by rw [hHere, hParent, hCase]
    obtain ⟨hFirst', hLt⟩ := hNested.parent_lt id p hFirst hCase
    have hBefore : ∀ i : Nat, i ≤ p → (s.modify id change).get i = s.get i := by
      intro i hLe
      rw [get_modify hSize, if_neg (by omega)]
    have hRest : (s.modify id change).environment p = s.environment p := by
      apply hNested.environment_congr hNested' hFirst' (by omega) (by omega)
      · exact fun i hLe => by rw [hBefore i hLe]
      · exact fun i hLe => by rw [hBefore i hLe]
    rw [hNested'.environment_of_some hFirst hSize' hSome,
      hNested.environment_of_some hFirst hSize hCase, hHere, hRest, List.tail_cons]

/-! ## Resolution -/

theorem resolve?_of_none (hParent : (s.get id).parent = none) (name : Name) :
    s.resolve? id name = ((s.get id).find? name).map (id, ·) := by
  simp [resolve?, chain_of_none hParent]

theorem Nested.resolve?_of_some (hNested : s.Nested first) (hFirst : first ≤ id)
    (hSize : id < s.items.size) {p : Nat} (hParent : (s.get id).parent = some p) (name : Name) :
    s.resolve? id name = (((s.get id).find? name).map (id, ·)).or (s.resolve? p name) := by
  rw [resolve?, hNested.chain_of_some hFirst hSize hParent, List.findSome?_cons, resolve?]
  cases (s.get id).find? name <;> rfl

theorem Nested.find?_environment (hNested : s.Nested first) (hFirst : first ≤ id)
    (hSize : id < s.items.size) (name : Name) :
    (s.environment id).find? name = (s.resolve? id name).map (·.2) := by
  induction id using Nat.strongRecOn with
  | ind id ih =>
    have hHere := (hNested.numbered id hFirst).find?_eq name
    cases hParent : (s.get id).parent with
    | none =>
      rw [environment_of_none hParent, resolve?_of_none hParent, hHere]
      cases hFind : (s.get id).frame.find? name <;> simp [Environment.find?, hFind]
    | some p =>
      obtain ⟨hFirst', hLt⟩ := hNested.parent_lt id p hFirst hParent
      rw [hNested.environment_of_some hFirst hSize hParent,
        hNested.resolve?_of_some hFirst hSize hParent, Environment.find?,
        ih p hLt hFirst' (by omega), hHere]
      cases (s.get id).frame.find? name <;> rfl

theorem Nested.resolve?_of_find? (hNested : s.Nested first) (hFirst : first ≤ id)
    (hSize : id < s.items.size) {name : Name} {x : Symbol}
    (hFind : (s.get id).find? name = some x) : s.resolve? id name = some (id, x) := by
  cases hParent : (s.get id).parent with
  | none => rw [resolve?_of_none hParent, hFind, Option.map_some]
  | some p =>
    rw [hNested.resolve?_of_some hFirst hSize hParent, hFind, Option.map_some, Option.some_or]

/-- A name that a scope does not bind is resolved in the scope around it. -/
theorem Nested.exists_parent_of_resolve? (hNested : s.Nested first) (hFirst : first ≤ id)
    (hSize : id < s.items.size) {name : Name} {i : Nat} {x : Symbol}
    (hFind : (s.get id).find? name = none) (hResolve : s.resolve? id name = some (i, x)) :
    ∃ p : Nat, (s.get id).parent = some p ∧ s.resolve? p name = some (i, x) := by
  cases hParent : (s.get id).parent with
  | none =>
    rw [resolve?_of_none hParent, hFind] at hResolve
    cases hResolve
  | some p =>
    rw [hNested.resolve?_of_some hFirst hSize hParent, hFind, Option.map_none,
      Option.none_or] at hResolve
    exact ⟨p, rfl, hResolve⟩

theorem Nested.resolve?_le (hNested : s.Nested first) (hFirst : first ≤ id)
    (hSize : id < s.items.size) {name : Name} {i : Nat} {x : Symbol}
    (hResolve : s.resolve? id name = some (i, x)) : first ≤ i ∧ i ≤ id := by
  induction id using Nat.strongRecOn with
  | ind id ih =>
    cases hFind : (s.get id).find? name with
    | none =>
      obtain ⟨p, hParent, hOuter⟩ :=
        hNested.exists_parent_of_resolve? hFirst hSize hFind hResolve
      obtain ⟨hFirst', hLt⟩ := hNested.parent_lt id p hFirst hParent
      obtain ⟨hLow, hHigh⟩ := ih p hLt hFirst' (by omega) hOuter
      exact ⟨hLow, by omega⟩
    | some y =>
      rw [hNested.resolve?_of_find? hFirst hSize hFind] at hResolve
      cases hResolve
      exact ⟨hFirst, Nat.le_refl _⟩

theorem Nested.refer (hNested : s.Nested first) (hFirst : first ≤ id)
    (hSize : id < s.items.size) (name : Name) (reference : Option NodeId) :
    (s.refer id name reference).Nested first :=
  hNested.modify hSize rfl rfl ((hNested.numbered id hFirst).refer name reference)

theorem Nested.environment_refer (hNested : s.Nested first) (hFirst : first ≤ id)
    (hSize : id < s.items.size) {name : Name} {i : Nat} {x : Symbol}
    (hResolve : s.resolve? id name = some (i, x)) (reference : Option NodeId) :
    (s.refer i name reference).environment id =
      (s.environment id).refer name reference := by
  induction id using Nat.strongRecOn with
  | ind id ih =>
    obtain ⟨hLow, hHigh⟩ := hNested.resolve?_le hFirst hSize hResolve
    have hNested' := hNested.refer hLow (by omega) name reference
    have hNumbered := hNested.numbered id hFirst
    cases hFind : (s.get id).find? name with
    | some y =>
      have hBound : ((s.get id).frame.find? name).isSome := by
        rw [← hNumbered.find?_eq, hFind, Option.isSome_some]
      rw [hNested.resolve?_of_find? hFirst hSize hFind] at hResolve
      cases hResolve
      obtain ⟨fs, hEnvironment⟩ := hNested.exists_environment hFirst hSize
      rw [Scopes.refer, hNested.environment_modify hFirst hSize hNested' rfl, hEnvironment,
        List.tail_cons, Environment.refer, if_pos hBound, hNumbered.frame_refer]
    | none =>
      have hFree : ¬ ((s.get id).frame.find? name).isSome := by
        rw [← hNumbered.find?_eq, hFind]
        exact Bool.false_ne_true
      obtain ⟨p, hParent, hOuter⟩ :=
        hNested.exists_parent_of_resolve? hFirst hSize hFind hResolve
      obtain ⟨hFirst', hLt⟩ := hNested.parent_lt id p hFirst hParent
      obtain ⟨-, hBelow⟩ := hNested.resolve?_le hFirst' (by omega) hOuter
      -- the scope of the binding is further out, so this one stays as it is
      have hHere : (s.refer i name reference).get id = s.get id := by
        rw [Scopes.refer, get_modify (by omega), if_neg (by omega)]
      have hParent' : ((s.refer i name reference).get id).parent = some p := by
        rw [hHere, hParent]
      have hSize' : id < (s.refer i name reference).items.size := by
        simpa [Scopes.refer, Scopes.modify] using hSize
      rw [hNested'.environment_of_some hFirst hSize' hParent',
        hNested.environment_of_some hFirst hSize hParent, hHere, Environment.refer, if_neg hFree,
        ih p hLt hFirst' (by omega) hOuter]

/-! ## New scopes -/

theorem nested_create (s : Scopes) (node : Option NodeId) :
    (s.create node).2.Nested s.items.size := by
  have hGet : ∀ i : Nat, s.items.size ≤ i →
      ((s.create node).2.get i).parent = none ∧ ((s.create node).2.get i).level = 0 ∧
        ((s.create node).2.get i).symbols = [] := by
    intro i hLe
    rw [create, get_push]
    split
    · exact ⟨rfl, rfl, rfl⟩
    · rw [get_of_size_le hLe]
      exact ⟨rfl, rfl, rfl⟩
  refine ⟨?_, ?_, ?_, ?_⟩
  · intro i p hFirst hParent
    rw [(hGet i hFirst).1] at hParent
    cases hParent
  · exact fun i hFirst _ => (hGet i hFirst).2.1
  · intro i p hFirst hParent
    rw [(hGet i hFirst).1] at hParent
    cases hParent
  · exact fun i hFirst => Scope.numbered_of_nil (hGet i hFirst).2.2

theorem environment_create (s : Scopes) (node : Option NodeId) :
    (s.create node).2.environment s.items.size = [[]] := by
  have hGet : (s.create node).2.get s.items.size = { node, parent := none, level := 0 } := by
    rw [create, get_push, if_pos rfl]
  rw [environment_of_none (by rw [hGet]), hGet]
  rfl

/-- What a scope made inside another one leaves of the scopes before it. -/
theorem get_createChild (hSize : id < s.items.size) (node : Option NodeId) (i : Nat) :
    ((s.createChild id node).2.get i).parent =
        (if i = s.items.size then some id else (s.get i).parent) ∧
      ((s.createChild id node).2.get i).level =
        (if i = s.items.size then (s.get id).level + 1 else (s.get i).level) ∧
      ((s.createChild id node).2.get i).symbols =
        (if i = s.items.size then [] else (s.get i).symbols) := by
  simp only [createChild, get_push]
  generalize hChange : (fun p : Scope => { p with nested := p.nested ++ [s.items.size] }) = change
  have hParent : ∀ j : Nat, ((s.modify id change).get j).parent = (s.get j).parent :=
    apply_get_modify Scope.parent hSize (by rw [← hChange])
  have hLevel : ∀ j : Nat, ((s.modify id change).get j).level = (s.get j).level :=
    apply_get_modify Scope.level hSize (by rw [← hChange])
  have hSymbols : ∀ j : Nat, ((s.modify id change).get j).symbols = (s.get j).symbols :=
    apply_get_modify Scope.symbols hSize (by rw [← hChange])
  have hCount : (s.modify id change).items.size = s.items.size := by simp [modify]
  rw [hCount]
  split
  · exact ⟨rfl, congrArg (· + 1) (hLevel id), rfl⟩
  · exact ⟨hParent i, hLevel i, hSymbols i⟩

theorem size_createChild (s : Scopes) (id : Nat) (node : Option NodeId) :
    (s.createChild id node).2.items.size = s.items.size + 1 := by
  simp [createChild, modify]

theorem Nested.createChild (hNested : s.Nested first) (hFirst : first ≤ id)
    (hSize : id < s.items.size) (node : Option NodeId) :
    (s.createChild id node).2.Nested first := by
  have hGet := get_createChild hSize node
  refine ⟨?_, ?_, ?_, ?_⟩
  · intro i p hLow hParent
    rw [(hGet i).1] at hParent
    split at hParent
    · cases hParent
      exact ⟨hFirst, by omega⟩
    · exact hNested.parent_lt i p hLow hParent
  · intro i hLow hParent
    rw [(hGet i).1] at hParent
    split at hParent
    · cases hParent
    · next hOld =>
      rw [(hGet i).2.1, if_neg hOld]
      exact hNested.level_zero i hLow hParent
  · intro i p hLow hParent
    rw [(hGet i).1] at hParent
    split at hParent
    · next hNew =>
      cases hParent
      rw [(hGet i).2.1, if_pos hNew, (hGet id).2.1, if_neg (by omega)]
    · next hOld =>
      -- the new place was outside of the store, so it was nobody's parent
      have hBelow : p ≠ s.items.size := by
        intro hNew
        obtain ⟨-, hLt⟩ := hNested.parent_lt i p hLow hParent
        rw [get_of_size_le (by omega)] at hParent
        cases hParent
      rw [(hGet i).2.1, if_neg hOld, (hGet p).2.1, if_neg hBelow]
      exact hNested.level_succ i p hLow hParent
  · intro i hLow
    by_cases hNew : i = s.items.size
    · apply Scope.numbered_of_nil
      rw [(hGet i).2.2, if_pos hNew]
    · have hSymbols := (hGet i).2.2
      rw [if_neg hNew] at hSymbols
      obtain ⟨hIndices, hNodup⟩ := hNested.numbered i hLow
      exact ⟨by rw [hSymbols, hIndices], by rw [hSymbols]; exact hNodup⟩

theorem Nested.environment_createChild (hNested : s.Nested first) (hFirst : first ≤ id)
    (hSize : id < s.items.size) (node : Option NodeId) :
    (s.createChild id node).2.environment s.items.size = [] :: s.environment id := by
  have hGet := get_createChild hSize node
  have hNested' := hNested.createChild hFirst hSize node
  have hParent : ((s.createChild id node).2.get s.items.size).parent = some id := by
    rw [(hGet s.items.size).1, if_pos rfl]
  have hFrame : ((s.createChild id node).2.get s.items.size).frame = [] := by
    rw [Scope.frame, (hGet s.items.size).2.2, if_pos rfl, List.map_nil]
  have hOuter : (s.createChild id node).2.environment id = s.environment id := by
    have hCount := s.size_createChild id node
    apply hNested.environment_congr hNested' hFirst hSize (by omega)
    · intro i hLe
      rw [(hGet i).1, if_neg (by omega)]
    · intro i hLe
      rw [Scope.frame, (hGet i).2.2, if_neg (by omega), Scope.frame]
  rw [hNested'.environment_of_some (by omega) (by rw [size_createChild]; omega) hParent, hFrame,
    hOuter]

end

end Scopes

end SemanticCore
